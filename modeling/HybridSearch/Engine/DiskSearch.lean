/-
# Engine.DiskSearch -- the disk search is a beam search of the graph

Whatever is cached, and in whatever order the reads of a round complete, the
pointers of a round lead to the records of its nodes (`fetch`).  So the loop of
`DiskIndex::search` is the beam search of `Engine.BeamSearch` on the graph in the
file (`loop_eq_run`), and the set of visited nodes is the only thing the scratch
of earlier searches could have changed.

* `fits`: a record lies inside the blocks read for it;
* `search_spec`: the hits of a search.
-/
import HybridSearch.Engine.DiskIndex
import Mathlib.Data.List.Zip
import Mathlib.Tactic.Ring

namespace HybridSearch.Engine.DiskIndex

open HybridSearch.Theory

set_option autoImplicit false

variable {ix : DiskIndex} (wf : ix.WellFormed)

/-! ## The layout -/

section Layout

include wf

theorem recordBytes_eq : ix.recordBytes = ix.dim * 4 + 4 + ix.R * 4 := by
  have layout := congrArg Prod.fst wf.layout
  have sized : ix.dim * 4 + 4 + ix.R * 4 + 4096 ≤ 2 ^ 32 := wf.sized
  rw [diskLayout] at layout
  have small : u32 (ix.dim * 4 + 4 + ix.R * 4) = ix.dim * 4 + 4 + ix.R * 4 :=
    Nat.mod_eq_of_lt (by omega)
  split_ifs at layout
  · exact layout.trans small
  · exact layout.trans small

/-- **A record lies inside the blocks read for it.** -/
theorem fits (id : Nat) : ix.recordOffset id % kBlock + ix.recordBytes ≤ ix.readLen := by
  have bytes := recordBytes_eq wf
  have layout := wf.layout
  have sized : ix.dim * 4 + 4 + ix.R * 4 + 4096 ≤ 2 ^ 32 := wf.sized
  have small : u32 (ix.dim * 4 + 4 + ix.R * 4) = ix.dim * 4 + 4 + ix.R * 4 :=
    Nat.mod_eq_of_lt (by omega)
  rw [diskLayout, small, ← bytes] at layout
  rw [← bytes] at sized
  have whole (x : Nat) : u64 x % kBlock = x % kBlock := Nat.mod_mod_of_dvd x (by decide)
  have aligned (blocks rest : Nat) (inside : rest < kBlock) :
      (kBlock + blocks * kBlock + rest) % kBlock = rest := by
    have split : kBlock + blocks * kBlock + rest = rest + (blocks + 1) * kBlock := by ring
    rw [split, Nat.add_mul_mod_self_right, Nat.mod_eq_of_lt inside]
  have start (blocks : Nat) : (kBlock + blocks * kBlock) % kBlock = 0 := aligned blocks 0 (by decide)
  rw [recordOffset, diskRecordOffset, readLen]
  split_ifs at layout with packed
  · obtain ⟨nodes, blocks⟩ : ix.nodesPerBlock = kBlock / ix.recordBytes ∧ ix.blocksPerNode = 1 :=
      ⟨congrArg (fun p => p.2.1) layout, congrArg (fun p => p.2.2) layout⟩
    have one : u32 (ix.blocksPerNode * kBlock) = kBlock := by rw [blocks]; rfl
    have room : ix.nodesPerBlock * ix.recordBytes ≤ kBlock := by
      rw [nodes]
      exact Nat.div_mul_le_self ..
    rw [one]
    split_ifs with many
    · have slot : (id % ix.nodesPerBlock + 1) * ix.recordBytes ≤ ix.nodesPerBlock * ix.recordBytes :=
        Nat.mul_le_mul_right _ (Nat.mod_lt _ (by omega))
      rw [Nat.add_mul, Nat.one_mul] at slot
      rw [whole, aligned _ _ (by omega)]
      omega
    · rw [whole, start, Nat.zero_add]
      exact packed
  · obtain ⟨nodes, blocks⟩ : ix.nodesPerBlock = 1 ∧
        ix.blocksPerNode = u32 (ix.recordBytes + kBlock - 1) / kBlock :=
      ⟨congrArg (fun p => p.2.1) layout, congrArg (fun p => p.2.2) layout⟩
    have up : u32 (ix.recordBytes + kBlock - 1) = ix.recordBytes + 4095 := by
      have less : ix.recordBytes + 4095 < 2 ^ 32 := by omega
      exact Nat.mod_eq_of_lt less
    have len : u32 (ix.blocksPerNode * kBlock) = (ix.recordBytes + 4095) / 4096 * 4096 := by
      have less : (ix.recordBytes + 4095) / 4096 * 4096 < 2 ^ 32 := by omega
      rw [blocks, up]
      exact Nat.mod_eq_of_lt less
    rw [if_neg (by omega), whole, start, Nat.zero_add, len]
    omega

/-- What memory must hold to be read as the record of a node. -/
def HasRecord (ix : DiskIndex) (m : Memory) (id : Nat) : Prop := ∀ j < ix.recordBytes, m j = ix.record id j

/-- Reading a record only looks at the record. -/
theorem HasRecord.view {m : Memory} {id : Nat} (has : HasRecord ix m id) (inside : id < ix.n) :
    ix.vector m = ix.vector (ix.record id) ∧ ix.neighbors m = ix.neighbors (ix.record id) := by
  have bytes := recordBytes_eq wf
  have word {i : Nat} (room : i + 4 ≤ ix.recordBytes) : m.word i = (ix.record id).word i := by
    rw [Memory.word, Memory.word, has i (by omega), has (i + 1) (by omega), has (i + 2) (by omega),
      has (i + 3) (by omega)]
  have degree : ix.degree m = ix.degree (ix.record id) := word (by omega)
  have few := wf.degree id inside
  constructor
  · refine List.map_congr_left fun j mem => has j ?_
    have := List.mem_range.mp mem
    omega
  · rw [neighbors, neighbors, degree]
    refine List.map_congr_left fun j mem => word ?_
    have := List.mem_range.mp mem
    omega

end Layout

/-! ## Reading a round -/

/-- Two reads go to disjoint parts of the buffer. -/
def Apart (r r' : IoRequest) : Prop := r.slot + r.len ≤ r'.slot ∨ r'.slot + r'.len ≤ r.slot

/-- **Reads into disjoint slots deliver their bytes**, and touch nothing else. -/
theorem execute_spec {reqs : List IoRequest} (apart : reqs.Pairwise Apart)
    (readable : ∀ r ∈ reqs, r.off + r.len ≤ ix.file.length) (buf : Memory) :
    ∃ buf', reqs.foldlM ix.execute buf = .ok buf' ∧
      (∀ r ∈ reqs, ∀ j < r.len, buf' (r.slot + j) = ix.file.getD (r.off + j) 0) ∧
      ∀ i, (∀ r ∈ reqs, i < r.slot ∨ r.slot + r.len ≤ i) → buf' i = buf i := by
  induction reqs generalizing buf with
  | nil => exact ⟨buf, rfl, fun r mem => absurd mem List.not_mem_nil, fun _ _ => rfl⟩
  | cons r rest ih =>
      obtain ⟨first, apart'⟩ := List.pairwise_cons.mp apart
      let buf₁ : Memory := fun i =>
        if r.slot ≤ i ∧ i < r.slot + r.len then ix.file.getD (r.off + (i - r.slot)) 0 else buf i
      have step : ix.execute buf r = .ok buf₁ := if_pos (.inr (readable r (List.mem_cons_self ..)))
      obtain ⟨buf', run, delivered, untouched⟩ :=
        ih apart' (fun r' mem => readable r' (List.mem_cons_of_mem _ mem)) buf₁
      refine ⟨buf', ?_, ?_, ?_⟩
      · rw [List.foldlM_cons, step]
        exact run
      · intro r' mem j less
        rcases List.mem_cons.mp mem with rfl | later
        · have outside : ∀ other ∈ rest, r'.slot + j < other.slot ∨ other.slot + other.len ≤ r'.slot + j := by
            intro other other_mem
            rcases first other other_mem with before | after
            · exact .inl (by omega)
            · exact .inr (by omega)
          rw [untouched _ outside]
          change (if r'.slot ≤ r'.slot + j ∧ r'.slot + j < r'.slot + r'.len then _ else _) = _
          rw [if_pos (by omega), Nat.add_sub_cancel_left]
        · exact delivered r' later j less
      · intro i outside
        rw [untouched i fun other mem => outside other (List.mem_cons_of_mem _ mem)]
        have := outside r (List.mem_cons_self ..)
        exact if_neg (by omega)

/-- What the pointers and the reads of the nodes `ids` are. -/
structure Requested (ix : DiskIndex) (cache : Cache) (ids : List Nat) (ptrs : List Ptr)
    (reqs : List IoRequest) : Prop where
  reads : ∀ r ∈ reqs, r.len = ix.readLen ∧ r.slot + r.len ≤ reqs.length * ix.readLen ∧
    ∃ id ∈ ids, r.off = ix.readOffset id
  apart : reqs.Pairwise Apart
  ptrs : List.Forall₂ (fun id p =>
    (∃ offset, ix.cached cache id = some offset ∧ p = .cache offset) ∨
      ∃ r ∈ reqs, r.off = ix.readOffset id ∧
        p = .buffer (r.slot + (ix.recordOffset id - ix.readOffset id))) ids ptrs

theorem Requested.step {cache : Cache} {ids : List Nat} {acc : List Ptr × List IoRequest}
    (requested : Requested ix cache ids acc.1 acc.2) (id : Nat) :
    Requested ix cache (ids ++ [id]) (ix.request cache acc id).1 (ix.request cache acc id).2 := by
  rw [request]
  cases lookup_eq : ix.cached cache id with
  | some offset =>
      refine ⟨?_, requested.apart, ?_⟩
      · intro r mem
        obtain ⟨len, inside, old, old_mem, off⟩ := requested.reads r mem
        exact ⟨len, inside, old, List.mem_append_left _ old_mem, off⟩
      · exact List.rel_append requested.ptrs (.cons (.inl ⟨offset, lookup_eq, rfl⟩) .nil)
  | none =>
      refine ⟨?_, ?_, ?_⟩
      · intro r mem
        rw [List.length_append, List.length_singleton, Nat.add_mul, Nat.one_mul]
        rcases List.mem_append.mp mem with old | new
        · obtain ⟨len, inside, other, other_mem, off⟩ := requested.reads r old
          exact ⟨len, by omega, other, List.mem_append_left _ other_mem, off⟩
        · rw [List.mem_singleton.mp new]
          exact ⟨rfl, le_rfl, id, List.mem_append_right _ (List.mem_singleton_self id), rfl⟩
      · rw [List.pairwise_append]
        refine ⟨requested.apart, List.pairwise_singleton _ _, ?_⟩
        intro r mem r' new
        rw [List.mem_singleton.mp new]
        exact .inl (requested.reads r mem).2.1
      · refine List.rel_append ?_ (.cons (.inr ⟨_, List.mem_append_right _ (List.mem_singleton_self _), rfl, rfl⟩) .nil)
        refine requested.ptrs.imp fun id p => ?_
        rintro (cached | ⟨r, mem, rest⟩)
        · exact .inl cached
        · exact .inr ⟨r, List.mem_append_left _ mem, rest⟩

theorem requests_spec (cache : Cache) (ids : List Nat) :
    Requested ix cache ids (ix.requests cache ids).1 (ix.requests cache ids).2 := by
  induction ids using List.reverseRecOn with
  | nil =>
      refine ⟨fun r mem => absurd mem List.not_mem_nil, List.Pairwise.nil, ?_⟩
      exact List.Forall₂.nil
  | append_singleton front id ih =>
      have step := ih.step id
      rwa [requests, List.foldl_append] at *

theorem cached_spec {cache : Cache} (cache_ok : ix.CacheOk cache) {id offset : Nat}
    (found : ix.cached cache id = some offset) (buf : Memory) :
    HasRecord ix (deref cache buf (.cache offset)) id := by
  rw [cached] at found
  generalize BinarySearch.lowerBound _ _ _ _ = it at found
  cases lookup_eq : cache.ids[it]? with
  | none =>
      rw [lookup_eq] at found
      cases found
  | some other =>
      rw [lookup_eq] at found
      dsimp only at found
      split_ifs at found with same
      cases found
      obtain ⟨inside, entry⟩ := List.getElem?_eq_some_iff.mp lookup_eq
      intro j less
      have there := cache_ok.data it inside j less
      rw [entry, same] at there
      exact there

theorem schedule_perm {mode : IoMode} (lawful : mode.Lawful) (reqs : List IoRequest) :
    (mode.schedule reqs).Perm reqs := by
  cases mode with
  | sequential => exact List.Perm.refl _
  | threadPool order =>
      rw [IoMode.schedule]
      split_ifs
      · exact lawful reqs
      · exact List.Perm.refl _

include wf in
/-- **The pointers of a round lead to the records of its nodes**, whatever is cached and in
whatever order the reads complete. -/
theorem fetch {cache : Cache} (cache_ok : ix.CacheOk cache) {mode : IoMode} (lawful : mode.Lawful)
    {ids : List Nat} (inside : ∀ id ∈ ids, id < ix.n) (buf : Memory) :
    ∃ buf', (mode.schedule (ix.requests cache ids).2).foldlM ix.execute buf = .ok buf' ∧
      List.Forall₂ (fun id p => HasRecord ix (deref cache buf' p) id) ids (ix.requests cache ids).1 := by
  have requested := @requests_spec ix cache ids
  have perm := schedule_perm lawful (ix.requests cache ids).2
  obtain ⟨buf', run, delivered, _⟩ := @execute_spec ix (mode.schedule (ix.requests cache ids).2)
    ((perm.pairwise_iff Or.symm).mpr requested.apart)
    (fun r mem => by
      obtain ⟨len, _, id, id_mem, off⟩ := requested.reads r (perm.mem_iff.mp mem)
      rw [len, off]
      exact wf.present id (inside id id_mem)) buf
  refine ⟨buf', run, ?_⟩
  refine requested.ptrs.imp fun id p => ?_
  rintro (⟨offset, found, rfl⟩ | ⟨r, mem, off, rfl⟩)
  · exact cached_spec cache_ok found buf'
  · intro j less
    have room := fits wf id
    have len := (requested.reads r mem).1
    have start : ix.readOffset id + ix.recordOffset id % kBlock = ix.recordOffset id :=
      Nat.div_add_mod' ..
    have gap : ix.recordOffset id - ix.readOffset id = ix.recordOffset id % kBlock := by omega
    have read := delivered r (perm.mem_iff.mpr mem) (ix.recordOffset id % kBlock + j) (by omega)
    rw [← Nat.add_assoc, ← Nat.add_assoc, off, start] at read
    rw [deref, gap]
    exact read

/-! ## The loop -/

/-- An expanded node with its exact inner product. -/
def scored (ix : DiskIndex) (q : DiskQuery) (id : Nat) : ScoredDoc := ⟨id, q.ip (ix.vector (ix.record id))⟩

/-- The scratch holds the state of the beam search. -/
structure Sim (ix : DiskIndex) (q : DiskQuery) (st : Beam) (s : DiskScratch) : Prop where
  visited : s.visited.Holds st.visited
  cands : s.cands = st.cands
  full : s.full = st.expanded.map (ix.scored q)

variable {q : DiskQuery} {st : Beam} {s : DiskScratch}

theorem graph_bounded (wf : ix.WellFormed) (q : DiskQuery) : (ix.graph q).Bounded ix.n :=
  ⟨wf.medoid, wf.neighbors⟩

include wf in
theorem real_of_lt {id : Nat} (inside : id < ix.n) : id < VisitedSet.kEmpty := by
  have count := wf.count
  rw [VisitedSet.kEmpty, uint32Max]
  omega

include wf in
theorem offer_sim (sim : Sim ix q st s) {nb : Nat} (inside : nb < ix.n) :
    ∃ s', ix.offer q s nb = .ok s' ∧ Sim ix q (Beam.offer (ix.graph q) st nb) s' ∧ s'.buf = s.buf := by
  obtain ⟨visited, inserted, holds⟩ := VisitedSet.insert_holds sim.visited (real_of_lt wf inside)
  rw [offer, inserted, Beam.offer]
  by_cases old : nb ∈ st.visited
  · rw [if_pos old]
    rw [Finset.insert_eq_self.mpr old] at holds
    refine ⟨{ s with visited := visited }, ?_, ⟨holds, sim.cands, sim.full⟩, rfl⟩
    simp only [old, not_true_eq_false, decide_false]
    rfl
  · rw [if_neg old]
    refine ⟨{ s with visited := visited, cands := (s.cands.insert nb (ix.pqDistance q nb)).2 }, ?_,
      ⟨holds, ?_, sim.full⟩, rfl⟩
    · simp only [old, not_false_eq_true, decide_true]
      rfl
    · dsimp only
      rw [sim.cands]
      rfl

include wf in
theorem foldlM_offer_sim (ids : List Nat) (sim : Sim ix q st s) (inside : ∀ id ∈ ids, id < ix.n) :
    ∃ s', ids.foldlM (ix.offer q) s = .ok s' ∧ Sim ix q (ids.foldl (Beam.offer (ix.graph q)) st) s' ∧
      s'.buf = s.buf := by
  induction ids generalizing st s with
  | nil => exact ⟨s, rfl, sim, rfl⟩
  | cons id rest ih =>
      obtain ⟨s₁, step, sim₁, buf₁⟩ := offer_sim wf sim (inside id (List.mem_cons_self ..))
      obtain ⟨s', run, sim', buf'⟩ := ih sim₁ fun other mem => inside other (List.mem_cons_of_mem _ mem)
      refine ⟨s', ?_, sim', buf'.trans buf₁⟩
      rw [List.foldlM_cons, step]
      exact run

include wf in
/-- Expanding a node whose pointer leads to its record. -/
theorem expandNode_sim {cache : Cache} (sim : Sim ix q st s) {id : Nat} (inside : id < ix.n) {p : Ptr}
    (has : HasRecord ix (deref cache s.buf p) id) :
    ∃ s', ix.expandNode cache q s (id, p) = .ok s' ∧ Sim ix q (Beam.expand (ix.graph q) st id) s' ∧
      s'.buf = s.buf := by
  obtain ⟨vector, neighbors⟩ := has.view wf inside
  rw [expandNode]
  dsimp only
  rw [vector, neighbors]
  refine @foldlM_offer_sim ix wf q { st with expanded := st.expanded ++ [id] }
    { s with full := s.full ++ [ix.scored q id] } _ ⟨sim.visited, sim.cands, ?_⟩ (wf.neighbors id inside)
  dsimp only
  rw [sim.full, List.map_append]
  rfl

include wf in
theorem foldlM_expandNode_sim {cache : Cache} {ids : List Nat} {ptrs : List Ptr} (sim : Sim ix q st s)
    (inside : ∀ id ∈ ids, id < ix.n)
    (has : List.Forall₂ (fun id p => HasRecord ix (deref cache s.buf p) id) ids ptrs) :
    ∃ s', (ids.zip ptrs).foldlM (ix.expandNode cache q) s = .ok s' ∧
      Sim ix q (ids.foldl (Beam.expand (ix.graph q)) st) s' := by
  induction ids generalizing st s ptrs with
  | nil =>
      cases has
      exact ⟨s, rfl, sim⟩
  | cons id rest ih =>
      cases has with
      | cons here later =>
          obtain ⟨s₁, step, sim₁, buf₁⟩ :=
            expandNode_sim wf sim (inside id (List.mem_cons_self ..)) here
          rw [← buf₁] at later
          obtain ⟨s', run, sim'⟩ := ih sim₁ (fun other mem => inside other (List.mem_cons_of_mem _ mem)) later
          refine ⟨s', ?_, sim'⟩
          rw [List.zip_cons_cons, List.foldlM_cons, step]
          exact run

section Loop

variable {cache : Cache} (cache_ok : ix.CacheOk cache) {mode : IoMode} (lawful : mode.Lawful) {L W : Nat}

include wf cache_ok lawful

/-- **A round reads and expands what a round of the beam search expands.** -/
theorem round_sim (sim : Sim ix q st s) (good : Beam.Good (ix.graph q) L st) :
    ∃ s', ix.round cache mode q W s = .ok s' ∧ Sim ix q (st.round (ix.graph q) W) s' := by
  have inside : ∀ id ∈ (st.cands.popFrontier W).1, id < ix.n := by
    intro id mem
    have inv := good.inv.frontier W
    exact (graph_bounded wf q).of_reaches
      (inv.reached id (inv.popped_seen id (List.mem_append_right _ mem)))
  obtain ⟨buf, read, has⟩ := fetch wf cache_ok lawful inside s.buf
  obtain ⟨s', run, sim'⟩ := @foldlM_expandNode_sim ix wf q { st with cands := (st.cands.popFrontier W).2 }
    { s with cands := (st.cands.popFrontier W).2, buf := buf } cache _ _
    ⟨sim.visited, rfl, sim.full⟩ inside has
  refine ⟨s', ?_, sim'⟩
  rw [round, sim.cands]
  dsimp only
  rw [read]
  exact run

/-- **The loop is the run of the beam search**, whatever the deadline does. -/
theorem loop_eq_run {fuel : Nat} {dl dl' : Deadline} {st' : Beam} (sim : Sim ix q st s)
    (good : Beam.Good (ix.graph q) L st) (ran : Beam.run (ix.graph q) W fuel st dl = some (st', dl')) :
    ∃ s', ix.loop cache mode q W fuel s dl = .ok (s', dl') ∧ Sim ix q st' s' := by
  induction fuel generalizing st s dl with
  | zero => cases ran
  | succ fuel ih =>
      rw [Beam.run] at ran
      rw [loop, sim.cands]
      by_cases unfinished : st.cands.hasUnexpanded = true
      · rw [if_pos unfinished] at ran ⊢
        obtain ⟨s₁, round, sim₁⟩ := round_sim wf cache_ok lawful sim good (W := W)
        dsimp only at ran
        rw [round]
        split_ifs at ran with fired
        · cases ran
          refine ⟨s₁, ?_, sim₁⟩
          change (if dl.expired.1 = true then _ else _) = _
          rw [if_pos fired]
          rfl
        · obtain ⟨s', run, sim'⟩ := ih sim₁ (Beam.round_inv good W).1 ran
          refine ⟨s', ?_, sim'⟩
          change (if dl.expired.1 = true then _ else _) = _
          rw [if_neg fired]
          exact run
      · rw [if_neg unfinished] at ran ⊢
        cases ran
        exact ⟨s, rfl, sim⟩

end Loop

/-! ## The search -/

/-- The scratch of a thread between searches: its table stores some set. -/
def Sound (s : DiskScratch) : Prop := ∃ old, s.visited.Holds old

def Reaches (ix : DiskIndex) (id : Nat) : Prop :=
  Relation.ReflTransGen (fun a b => b ∈ ix.neighbors (ix.record a)) ix.medoid id

open Classical in
/-- The nodes that can be reached from the medoid. -/
noncomputable def reachable (ix : DiskIndex) : List Nat :=
  (List.range ix.n).filter fun id => decide (ix.Reaches id)

open Classical in
include wf in
theorem mem_reachable {id : Nat} : id ∈ ix.reachable ↔ ix.Reaches id := by
  rw [reachable, List.mem_filter, List.mem_range, decide_eq_true_eq]
  exact ⟨fun both => both.2, fun reached => ⟨(graph_bounded wf ⟨fun _ => 0, fun _ => 0⟩).of_reaches reached, reached⟩⟩

theorem nodup_reachable (ix : DiskIndex) : ix.reachable.Nodup := List.nodup_range.filter _

/-- `k` and `L` of a search. -/
def clampK (ix : DiskIndex) (opts : VectorSearchOptions) : Nat := min opts.k ix.n
def clampL (ix : DiskIndex) (opts : VectorSearchOptions) : Nat := max opts.L (ix.clampK opts)

theorem start_sim (sound : Sound s) (wf : ix.WellFormed) (L : Nat) (buf : Memory) :
    ∃ visited, s.visited.clear.insert ix.medoid = .ok (true, visited) ∧
      Sim ix q (Beam.start (ix.graph q) L)
        ⟨visited, ((CandidateList.reset L).insert ix.medoid (ix.pqDistance q ix.medoid)).2, [], buf⟩ := by
  obtain ⟨old, holds⟩ := sound
  obtain ⟨visited, inserted, holds'⟩ := VisitedSet.insert_holds holds.clear (real_of_lt wf wf.medoid)
  exact ⟨visited, inserted, holds', rfl, rfl⟩

include wf in
/-- **A search is the run of the beam search, and keeps the best of what it expanded.** -/
theorem search_eq_run {opts : VectorSearchOptions} (k_pos : 0 < opts.k) (q : DiskQuery) (dl : Deadline) :
    ∃ st dl', Beam.run (ix.graph q) (max 1 opts.beamWidth) (ix.n + 1)
        (Beam.start (ix.graph q) (ix.clampL opts)) dl = some (st, dl') ∧
      Beam.Good (ix.graph q) (ix.clampL opts) st ∧
      ∀ cache, ix.CacheOk cache → ∀ mode : IoMode, mode.Lawful → ∀ s, Sound s →
        ∃ s', ix.search cache mode q opts s dl =
            .ok (⟨BestK.best ranksLe (ix.clampK opts) (st.expanded.map (ix.scored q)), dl'.fired⟩, s', dl') ∧
          Sim ix q st s' := by
  have L_pos : 0 < ix.clampL opts := by
    have := wf.medoid
    rw [clampL, clampK]
    omega
  have good := @Beam.start_good (ix.graph q) (ix.clampL opts) L_pos
  have W_pos : 0 < max 1 opts.beamWidth := by omega
  obtain ⟨st, dl', ran, good'⟩ := @Beam.run_ends (ix.graph q) (ix.clampL opts) _ ix.n
    (max 1 opts.beamWidth) (graph_bounded wf q) W_pos (ix.n + 1) dl good (by omega)
  refine ⟨st, dl', ran, good', ?_⟩
  intro cache cache_ok mode lawful s sound
  obtain ⟨visited, inserted, sim⟩ := start_sim sound wf (ix.clampL opts) s.buf (q := q)
  obtain ⟨s', run, sim'⟩ := loop_eq_run wf cache_ok lawful sim good ran
  refine ⟨s', ?_, sim'⟩
  rw [clampL, clampK] at run
  rw [search]
  dsimp only
  rw [inserted]
  change (ix.loop cache mode q (max 1 opts.beamWidth) (ix.n + 1)
    ⟨visited, ((CandidateList.reset (max opts.L (min opts.k ix.n))).insert ix.medoid
      (ix.pqDistance q ix.medoid)).2, [], s.buf⟩ dl >>= _) = _
  rw [run]
  change Except.ok (_, s', dl') = _
  rw [TopK.pushAll_best, sim'.full]
  rfl

/-- What the best of the expanded nodes are. -/
theorem best_expanded {L k : Nat} (good : Beam.Good (ix.graph q) L st) :
    let hits := BestK.best ranksLe k (st.expanded.map (ix.scored q))
    (hits.map Scored.doc).Nodup ∧
      (∀ h ∈ hits, ix.Reaches h.doc ∧ h.score = q.ip (ix.vector (ix.record h.doc))) ∧
      hits.Pairwise Scored.ranksBefore := by
  intro hits
  have docs : (st.expanded.map (ix.scored q)).map Scored.doc = st.expanded := by
    rw [List.map_map]
    exact List.map_id _
  have nodup : (st.expanded.map (ix.scored q)).Nodup := by
    refine List.Nodup.of_map Scored.doc ?_
    rw [docs]
    exact good.inv.once
  have some_of : ∀ h ∈ hits, ∃ id ∈ st.expanded, ix.scored q id = h := fun h mem =>
    List.mem_map.mp (BestK.mem_of_mem_best mem)
  refine ⟨?_, ?_, ?_⟩
  · refine List.Nodup.map_on ?_ (BestK.nodup_best nodup)
    intro a a_mem b b_mem same
    obtain ⟨id, _, rfl⟩ := some_of a a_mem
    obtain ⟨id', _, rfl⟩ := some_of b b_mem
    have : id = id' := same
    rw [this]
  · intro h mem
    obtain ⟨id, expanded, rfl⟩ := some_of h mem
    exact ⟨good.inv.reached id (good.inv.popped_seen id expanded), rfl⟩
  · have sorted := (BestK.sorted ranksLe_linear (st.expanded.map (ix.scored q))).sublist
      (List.take_sublist k _)
    refine (sorted.and (BestK.nodup_best nodup)).imp ?_
    rintro a b ⟨le, differ⟩
    exact (of_decide_eq_true le).resolve_left differ

include wf in
/-- **Beam search on the disk**: distinct reachable nodes with their exact scores, as many as
there are up to `k`, in ranking order, and the same ones whatever is cached and however the reads
are done; all of brute force over the reachable nodes when the list can hold them. -/
theorem search_spec (q : DiskQuery) (opts : VectorSearchOptions) (k_pos : 0 < opts.k) :
    ∃ hits : List ScoredDoc,
      (∀ cache, ix.CacheOk cache → ∀ mode : IoMode, mode.Lawful → ∀ s, Sound s →
        ∃ s', ix.search cache mode q opts s Deadline.unlimited =
            .ok (⟨hits, false⟩, s', Deadline.unlimited) ∧
          (s'.full.map Scored.doc).Nodup ∧ Sound s') ∧
      (hits.map Scored.doc).Nodup ∧
      (∀ h ∈ hits, ix.Reaches h.doc ∧ h.score = q.ip (ix.vector (ix.record h.doc))) ∧
      hits.Pairwise Scored.ranksBefore ∧
      hits.length = min opts.k ix.reachable.length ∧
      (ix.reachable.length ≤ max opts.L opts.k →
        hits = BestK.best ranksLe opts.k (ix.reachable.map (ix.scored q))) := by
  obtain ⟨st, dl', ran, good, searches⟩ := search_eq_run wf k_pos q Deadline.unlimited
  obtain ⟨finished, rfl⟩ := Beam.run_finished ran
  have few : ix.reachable.length ≤ ix.n := by
    have := List.length_filter_le (fun id => @decide (ix.Reaches id) (Classical.propDecidable _)) (List.range ix.n)
    rwa [List.length_range] at this
  have among : st.expanded ⊆ ix.reachable := fun id mem =>
    (mem_reachable wf).mpr (good.inv.reached id (good.inv.popped_seen id mem))
  have at_most := (good.inv.once.subperm among).length_le
  have covers : ix.reachable ⊆ st.expanded ∨ ix.clampL opts ≤ st.expanded.length := by
    refine (good.covers finished).imp_left fun all => ?_
    exact fun id mem => all id ((mem_reachable wf).mp mem)
  have all_of (enough : ix.reachable.length ≤ st.expanded.length) : st.expanded.Perm ix.reachable :=
    (good.inv.once.subperm among).perm_of_length_le enough
  have counted : ix.reachable ⊆ st.expanded → ix.reachable.length ≤ st.expanded.length := fun all =>
    ((nodup_reachable ix).subperm all).length_le
  obtain ⟨distinct, exact, ranked⟩ := best_expanded (k := ix.clampK opts) good
  refine ⟨BestK.best ranksLe (ix.clampK opts) (st.expanded.map (ix.scored q)), ?_, distinct, exact,
    ranked, ?_, ?_⟩
  · intro cache cache_ok mode lawful s sound
    obtain ⟨s', run, sim⟩ := searches cache cache_ok mode lawful s sound
    refine ⟨s', run, ?_, st.visited, sim.visited⟩
    rw [sim.full, List.map_map]
    exact (List.map_id st.expanded).symm ▸ good.inv.once
  · rw [BestK.best, List.length_take, List.length_mergeSort, List.length_map]
    rw [clampL] at covers
    rw [clampK] at *
    rcases covers with all | full
    · have := counted all
      omega
    · omega
  · intro enough
    have perm : st.expanded.Perm ix.reachable := by
      rcases covers with all | full
      · exact all_of (counted all)
      · refine all_of ?_
        rw [clampL, clampK] at full
        omega
    rw [BestK.best_perm ranksLe_linear _ (perm.map (ix.scored q)), BestK.best, BestK.best, clampK]
    have length : ((ix.reachable.map (ix.scored q)).mergeSort ranksLe).length ≤ ix.n := by
      rw [List.length_mergeSort, List.length_map]
      exact few
    rcases Nat.le_total opts.k ix.n with small | large
    · rw [Nat.min_eq_left small]
    · rw [Nat.min_eq_right large, List.take_of_length_le length, List.take_of_length_le (length.trans large)]

/-! ### Five nodes -/

/-- A record of one dimension with two neighbours. -/
def pairRecord (x a b : UInt8) : Bytes := [x, 0, 0, 0, 2, 0, 0, 0, a, 0, 0, 0, b, 0, 0, 0]

def fiveRecords : Bytes :=
  pairRecord 3 2 3 ++ pairRecord 5 3 4 ++ pairRecord 1 4 1 ++ pairRecord 9 0 1 ++ pairRecord 7 3 2

/-- From node 2 one step leads to 4 and 1, two lead to 3, and three to 0. -/
def fiveNodes : DiskIndex where
  n := 5
  dim := 1
  R := 2
  medoid := 2
  recordBytes := 16
  nodesPerBlock := 256
  blocksPerNode := 1
  file := List.replicate 4096 0 ++ (fiveRecords ++ List.replicate 4016 0)
  pqM := 1
  codes := [3, 5, 1, 9, 7]

def fiveLists : List (List Nat) := [[2, 3], [3, 4], [4, 1], [0, 1], [3, 2]]

theorem fiveNodes_record {id : Nat} (inside : id < 5) :
    fiveNodes.record id = fun j => fiveRecords.getD (id * 16 + j) 0 := by
  funext j
  have place : fiveNodes.recordOffset id = 4096 + id * 16 := by
    change u64 (4096 + id / 256 * 4096 + id % 256 * 16) = _
    rw [u64, Nat.div_eq_of_lt (by omega), Nat.mod_eq_of_lt (show id < 256 by omega),
      Nat.mod_eq_of_lt (by omega)]
  change (List.replicate 4096 0 ++ (fiveRecords ++ List.replicate 4016 0)).getD _ 0 = _
  rw [place, List.getD_append_right _ _ _ _ (by rw [List.length_replicate]; omega), List.length_replicate,
    show 4096 + id * 16 + j - 4096 = id * 16 + j by omega]
  rcases Nat.lt_or_ge (id * 16 + j) fiveRecords.length with within | behind
  · rw [List.getD_append _ _ _ _ within]
  · rw [List.getD_append_right _ _ _ _ behind, List.getD_eq_default _ _ behind, List.getD_eq_getElem?_getD]
    exact List.getElem?_getD_replicate_default_eq ..

theorem fiveNodes_neighbors {id : Nat} (inside : id < 5) :
    fiveNodes.neighbors (fiveNodes.record id) = fiveLists.getD id [] := by
  rw [fiveNodes_record inside]
  have lists : ∀ id < 5, fiveNodes.neighbors (fun j => fiveRecords.getD (id * 16 + j) 0) =
      fiveLists.getD id [] := by decide
  exact lists id inside

theorem fiveNodes_wf : fiveNodes.WellFormed where
  layout := rfl
  sized := by decide
  count := by decide
  medoid := by decide
  degree id inside := by
    rw [fiveNodes_record inside]
    have two : ∀ id < 5, fiveNodes.degree (fun j => fiveRecords.getD (id * 16 + j) 0) ≤ 2 := by decide
    exact two id inside
  neighbors id inside nb mem := by
    rw [fiveNodes_neighbors inside] at mem
    have lists : ∀ id < 5, ∀ nb ∈ fiveLists.getD id [], nb < 5 := by decide
    exact lists id inside nb mem
  present id inside := by
    have length : fiveNodes.file.length = 8192 := by
      change (List.replicate 4096 0 ++ (fiveRecords ++ List.replicate 4016 0)).length = 8192
      rw [List.length_append, List.length_append, List.length_replicate, List.length_replicate]
      rfl
    have blocks : ∀ id < 5, fiveNodes.readOffset id + fiveNodes.readLen ≤ 8192 := by decide
    exact length ▸ blocks id inside

theorem fiveNodes_reaches {id : Nat} (inside : id < 5) : fiveNodes.Reaches id := by
  have step {a b : Nat} (reached : fiveNodes.Reaches a) (small : a < 5) (next : b ∈ fiveLists.getD a []) :
      fiveNodes.Reaches b := reached.tail (by rwa [fiveNodes_neighbors small])
  have second : fiveNodes.Reaches 2 := .refl
  have fourth := @step 2 4 second (by decide) (by decide)
  have first := @step 2 1 second (by decide) (by decide)
  have third := @step 4 3 fourth (by decide) (by decide)
  have start := @step 3 0 third (by decide) (by decide)
  match id, inside with
  | 0, _ => exact start
  | 1, _ => exact first
  | 2, _ => exact second
  | 3, _ => exact third
  | 4, _ => exact fourth

open Classical in
theorem fiveNodes_reachable : fiveNodes.reachable = [0, 1, 2, 3, 4] := by
  refine List.filter_eq_self.mpr fun id mem => ?_
  rw [decide_eq_true_eq]
  exact fiveNodes_reaches (List.mem_range.mp mem)

/-- The records of nodes 1 and 4. -/
def fiveCache : Cache := ⟨[1, 4], pairRecord 5 3 4 ++ pairRecord 7 3 2⟩

theorem fiveCache_ok : fiveNodes.CacheOk fiveCache where
  sorted := by decide
  data i inside j within := by
    have small : ∀ i, ∀ inside : i < fiveCache.ids.length, fiveCache.ids[i] < 5 := by decide
    rw [fiveNodes_record (small i inside)]
    have same : ∀ i, ∀ inside : i < fiveCache.ids.length, ∀ j < 16,
        fiveCache.data.getD (i * 16 + j) 0 = fiveRecords.getD (fiveCache.ids[i] * 16 + j) 0 := by decide
    exact same i inside j within

/-- A query that a vector's, or a code's, first byte answers. -/
def firstByte : DiskQuery := ⟨fun vec => ((vec.getD 0 0).toNat : ℚ), fun code => ((code.getD 0 0).toNat : ℚ)⟩

/-- Up to two nodes are expanded in a round, nodes 1 and 4 from the cache, and the reads of a round
complete in reverse. -/
theorem search_spec_fiveNodes : ∃ s', fiveNodes.search fiveCache (.threadPool List.reverse) firstByte ⟨2, 5, 2⟩
      ⟨VisitedSet.init, CandidateList.reset 0, [], fun _ => 0⟩ Deadline.unlimited =
    .ok (⟨[⟨3, 9⟩, ⟨4, 7⟩], false⟩, s', Deadline.unlimited) ∧ (s'.full.map Scored.doc).Nodup := by
  obtain ⟨hits, searches, -, -, -, -, whole⟩ := search_spec fiveNodes_wf firstByte ⟨2, 5, 2⟩ (by decide)
  have scores : fiveNodes.reachable.map (fiveNodes.scored firstByte) =
      [⟨0, 3⟩, ⟨1, 5⟩, ⟨2, 1⟩, ⟨3, 9⟩, ⟨4, 7⟩] := by
    rw [fiveNodes_reachable]
    simp only [List.map_cons, List.map_nil, scored]
    rw [fiveNodes_record (by decide), fiveNodes_record (by decide), fiveNodes_record (by decide),
      fiveNodes_record (by decide), fiveNodes_record (by decide)]
    rfl
  have ranked : BestK.best ranksLe 2 [⟨0, 3⟩, ⟨1, 5⟩, ⟨2, 1⟩, ⟨3, 9⟩, ⟨4, 7⟩] = [⟨3, 9⟩, ⟨4, 7⟩] := by
    rw [BestK.best_perm ranksLe_linear 2 (show List.Perm _ [⟨3, 9⟩, ⟨4, 7⟩, ⟨1, 5⟩, ⟨0, 3⟩, ⟨2, 1⟩] by decide),
      BestK.best, List.mergeSort_of_pairwise (by decide)]
    rfl
  have found : hits = [⟨3, 9⟩, ⟨4, 7⟩] := by
    rw [whole (by rw [fiveNodes_reachable]; decide), scores, ranked]
  obtain ⟨s', ran, once, -⟩ := searches fiveCache fiveCache_ok (.threadPool List.reverse)
    (fun reqs => List.reverse_perm reqs) ⟨VisitedSet.init, CandidateList.reset 0, [], fun _ => 0⟩
    ⟨∅, VisitedSet.holds_init⟩
  exact ⟨s', found ▸ ran, once⟩

end HybridSearch.Engine.DiskIndex
