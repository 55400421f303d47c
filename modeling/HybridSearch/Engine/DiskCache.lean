/-
# Engine.DiskCache -- the cache of an opened disk index (disk_index.cc, `DiskIndex::open`)

`open` caches the nodes next to the medoid: it takes their records in the order in which
a breadth-first search meets them, meets none any more once there are enough, and sorts
them by their ids.  The loop is that search (`cacheNode_eq`, `cacheLoop_spec`), so the
cache has as many nodes as were asked for or can be reached, and all nodes of as many
hops as it has room for (`openCache_spec`).

A part of the window that is read for a node is that part of its record (`copyFrom_window`),
so an index that was stored is well formed, with the vectors and the lists that were
stored (`Stored.wellFormed`).
-/
import HybridSearch.Engine.DiskBuilt
import HybridSearch.Engine.DiskSearch
import HybridSearch.Theory.Bfs

namespace HybridSearch.Engine

open HybridSearch.Theory

set_option autoImplicit false

/-- `order`, `seen` and `recs` of `open`. -/
structure Caching where
  order : List Nat
  seen : VisitedSet
  recs : List Bytes

namespace DiskIndex

/-! ## Opening -/

/-- One neighbour of a node; none is met any more once there are enough. -/
def meetNeighbor (want : Nat) (window : Bytes) (place : Nat) (s : Caching) (j : Nat) : Except Fault Caching :=
  if s.order.length < want then do
    let nbr ← copyFrom window (place + j * 4) 4
    let (fresh, seen) ← s.seen.insert (wordAt nbr 0)
    pure { s with order := if fresh then s.order ++ [wordAt nbr 0] else s.order, seen := seen }
  else pure s

/-- One node: its record, and its neighbours. -/
def cacheNode (ix : DiskIndex) (want : Nat) (s : Caching) (id : Nat) : Except Fault Caching := do
  let window ← preadFull ix.file ix.readLen (ix.readOffset id)
  let place := ix.recordOffset id - ix.readOffset id
  let record ← copyFrom window place ix.recordBytes
  let degree ← copyFrom window (place + ix.dim * 4) 4
  (List.range (wordAt degree 0)).foldlM (meetNeighbor want window (place + ix.dim * 4 + 4))
    { s with recs := s.recs ++ [record] }

/-- The loop, within its fuel. -/
def cacheLoop (ix : DiskIndex) (want : Nat) : Nat → Nat → Caching → Except Fault Caching
  | 0, _, _ => .error .diverged
  | fuel + 1, head, s =>
      match s.order[head]? with
      | none => pure s
      | some id =>
          if s.recs.length < want then do
            let s ← ix.cacheNode want s id
            cacheLoop ix want fuel (head + 1) s
          else pure s

/-- `cache_ids_` and `cache_data_` of the opened index. -/
def openCache (ix : DiskIndex) (cacheNodes : Nat) : Except Fault Cache :=
  if 0 < cacheNodes then do
    let want := min cacheNodes ix.n
    let (_, seen) ← VisitedSet.init.insert ix.medoid
    let s ← ix.cacheLoop want (want + 1) 0 ⟨[ix.medoid], seen, []⟩
    let taken := ((s.order.take s.recs.length).zip s.recs).mergeSort fun a b => decide (a.1 ≤ b.1)
    pure ⟨taken.map Prod.fst, taken.flatMap Prod.snd⟩
  else pure ⟨[], []⟩

/-! ## The window of a record -/

/-- The bytes of a record from `q` on. -/
def recordPart (ix : DiskIndex) (id q k : Nat) : Bytes := (List.range k).map fun j => ix.record id (q + j)

section Window

variable {ix : DiskIndex} {id : Nat} (low : ix.readOffset id ≤ ix.recordOffset id)
  (present : ix.readOffset id + ix.readLen ≤ ix.file.length)

include low present

/-- **A part of the window is a part of the record.** -/
theorem copyFrom_window {q k : Nat} (within : ix.recordOffset id - ix.readOffset id + q + k ≤ ix.readLen) :
    copyFrom (Regions.slice ix.file (ix.readOffset id) ix.readLen) (ix.recordOffset id - ix.readOffset id + q) k =
      .ok (ix.recordPart id q k) := by
  rw [copyFrom, if_pos (by rw [Regions.length_slice present]; exact within), Regions.slice_slice within]
  congr 1
  have place : ix.readOffset id + (ix.recordOffset id - ix.readOffset id + q) = ix.recordOffset id + q := by omega
  rw [place]
  refine List.ext_getElem? fun j => ?_
  rcases Nat.lt_or_ge j k with below | above
  · have inside : ix.recordOffset id + q + j < ix.file.length := by omega
    rw [Regions.getElem?_slice below, recordPart, List.getElem?_map, List.getElem?_range below,
      List.getElem?_eq_getElem inside, Option.map_some, record, ← Nat.add_assoc, List.getD_eq_getElem _ _ inside]
  · rw [recordPart, List.getElem?_eq_none (by rw [Regions.length_slice (by omega)]; exact above),
      List.getElem?_eq_none (by rw [List.length_map, List.length_range]; exact above)]

omit low present in
theorem getD_recordPart {q k i : Nat} (below : i < k) : (ix.recordPart id q k).getD i 0 = ix.record id (q + i) := by
  rw [recordPart, List.getD_eq_getElem _ _ (by rw [List.length_map, List.length_range]; exact below),
    List.getElem_map, List.getElem_range]

omit low present in
/-- A word of the record. -/
theorem wordAt_recordPart {q k j : Nat} (inside : 4 * j + 4 ≤ k) :
    wordAt (ix.recordPart id q k) j = (ix.record id).word (q + 4 * j) := by
  simp only [wordAt, Memory.word]
  rw [getD_recordPart (by omega), getD_recordPart (by omega), getD_recordPart (by omega), getD_recordPart (by omega)]
  rfl

omit low present in
theorem wordAt_degree : wordAt (ix.recordPart id (ix.dim * 4) 4) 0 = ix.degree (ix.record id) := by
  rw [wordAt_recordPart (by omega), DiskIndex.degree, Nat.mul_zero, Nat.add_zero]

theorem readNode_window {vec : Bytes} {list : List Nat} (positive : 0 < ix.readLen)
    (vector : ix.recordOffset id - ix.readOffset id + (ix.dim * 4 + 4) ≤ ix.readLen)
    (read : ix.readNode id = .ok (vec, list)) :
    vec = ix.vector (ix.record id) ∧ list = ix.neighbors (ix.record id) := by
  have window : preadFull ix.file ix.readLen (ix.readOffset id) =
      .ok (Regions.slice ix.file (ix.readOffset id) ix.readLen) := by
    rw [preadFull, if_neg (by omega), if_pos present]
  have vecBytes := copyFrom_window low present (q := 0) (k := ix.dim * 4) (by omega)
  have deg := copyFrom_window low present (q := ix.dim * 4) (k := 4) (by omega)
  rw [Nat.add_zero] at vecBytes
  rw [readNode, window, ok_bind] at read
  dsimp only at read
  rw [vecBytes, ok_bind, deg, ok_bind, wordAt_degree] at read
  obtain ⟨nb, taken, done⟩ := bind_eq_ok.mp read
  cases done
  have fits : ix.recordOffset id - ix.readOffset id + (ix.dim * 4 + 4) + ix.degree (ix.record id) * 4 ≤ ix.readLen := by
    rw [copyFrom, Regions.length_slice present] at taken
    split_ifs at taken with inside
    omega
  have own := copyFrom_window low present fits
  rw [← Nat.add_assoc] at own
  rw [own] at taken
  cases taken
  refine ⟨?_, List.map_congr_left fun j mem => ?_⟩
  · rw [recordPart, DiskIndex.vector]
    simp only [Nat.zero_add]
  · have below := List.mem_range.mp mem
    rw [wordAt_recordPart (by omega), Nat.mul_comm 4]

end Window

/-! ## The search for the nodes to cache -/

section Caching

variable {ix : DiskIndex} {want : Nat} {s : Caching}

/-- The lists that the records have. -/
def lists (ix : DiskIndex) (id : Nat) : List Nat := ix.neighbors (ix.record id)

/-- What is cached of a node. -/
def cachedRecord (ix : DiskIndex) (id : Nat) : Bytes := ix.recordPart id 0 ix.recordBytes

theorem meetNeighbor_eq (holds : s.seen.Holds s.order.toFinset) {window bytes : Bytes} {place j : Nat}
    (read : copyFrom window (place + j * 4) 4 = .ok bytes) (real : wordAt bytes 0 < VisitedSet.kEmpty) :
    ∃ seen, meetNeighbor want window place s j =
        .ok { s with order := Bfs.meet want s.order (wordAt bytes 0), seen := seen } ∧
      seen.Holds (Bfs.meet want s.order (wordAt bytes 0)).toFinset := by
  rw [meetNeighbor, Bfs.meet]
  by_cases room : s.order.length < want
  · obtain ⟨seen, inserted, after⟩ := VisitedSet.insert_holds holds real
    refine ⟨seen, ?_, ?_⟩
    · rw [if_pos room, read, ok_bind, inserted, ok_bind]
      simp only [List.mem_toFinset, decide_eq_true_eq, room, true_and]
      rfl
    · split_ifs with fresh
      · rwa [List.toFinset_append, Finset.union_comm, List.toFinset_cons, List.toFinset_nil, insert_empty_eq,
          ← Finset.insert_eq]
      · have old : wordAt bytes 0 ∈ s.order.toFinset :=
          List.mem_toFinset.mpr (not_not.mp fun absent => fresh ⟨room, absent⟩)
        rwa [Finset.insert_eq_of_mem old] at after
  · have full (v : Nat) : ¬ (s.order.length < want ∧ v ∉ s.order) := fun both => room both.1
    refine ⟨s.seen, ?_, ?_⟩
    · rw [if_neg room, if_neg (full _)]
      rfl
    · rwa [if_neg (full _)]

theorem foldlM_meetNeighbor {window : Bytes} {place : Nat} {nbr : Nat → Nat} {js : List Nat}
    (each : ∀ j ∈ js, nbr j < VisitedSet.kEmpty ∧
      ∃ bytes, copyFrom window (place + j * 4) 4 = .ok bytes ∧ wordAt bytes 0 = nbr j)
    (holds : s.seen.Holds s.order.toFinset) :
    ∃ seen, js.foldlM (meetNeighbor want window place) s =
        .ok { s with order := (js.map nbr).foldl (Bfs.meet want) s.order, seen := seen } ∧
      seen.Holds ((js.map nbr).foldl (Bfs.meet want) s.order).toFinset := by
  induction js generalizing s with
  | nil => exact ⟨s.seen, rfl, holds⟩
  | cons j rest ih =>
      obtain ⟨⟨real, bytes, read, word⟩, each⟩ := List.forall_mem_cons.mp each
      rw [← word] at real
      obtain ⟨seen, met, holds⟩ := @meetNeighbor_eq want _ holds _ _ _ _ read real
      rw [word] at met holds
      obtain ⟨seen', ran, after⟩ := @ih { s with order := Bfs.meet want s.order (nbr j), seen := seen } each holds
      refine ⟨seen', ?_, after⟩
      rw [List.foldlM_cons, met, ok_bind, ran]
      rfl

variable (wf : ix.WellFormed)

include wf

theorem window_of_wellFormed {id : Nat} (inside : id < ix.n) :
    ix.readOffset id ≤ ix.recordOffset id ∧
      ix.recordOffset id - ix.readOffset id + ix.recordBytes ≤ ix.readLen ∧
      preadFull ix.file ix.readLen (ix.readOffset id) =
        .ok (Regions.slice ix.file (ix.readOffset id) ix.readLen) := by
  have low : ix.readOffset id ≤ ix.recordOffset id := Nat.div_mul_le_self _ _
  have fits := fits wf id
  have bytes := recordBytes_eq wf
  have rest : ix.recordOffset id - ix.readOffset id = ix.recordOffset id % kBlock := by
    have whole := Nat.div_add_mod' (ix.recordOffset id) kBlock
    rw [readOffset]
    omega
  refine ⟨low, rest ▸ fits, ?_⟩
  rw [preadFull, if_neg (by omega), if_pos (wf.present id inside)]

/-- **A node is cached** with its record, and the search takes it. -/
theorem cacheNode_eq (holds : s.seen.Holds s.order.toFinset) {id : Nat} (inside : id < ix.n) :
    ∃ seen, ix.cacheNode want s id =
        .ok ⟨Bfs.visit ix.lists want s.order id, seen, s.recs ++ [ix.cachedRecord id]⟩ ∧
      seen.Holds (Bfs.visit ix.lists want s.order id).toFinset := by
  obtain ⟨low, fits, window⟩ := window_of_wellFormed wf inside
  have present := wf.present id inside
  have bytes := recordBytes_eq wf
  have few := wf.degree id inside
  have part {q k : Nat} (within : q + k ≤ ix.recordBytes) :
      copyFrom (Regions.slice ix.file (ix.readOffset id) ix.readLen) (ix.recordOffset id - ix.readOffset id + q) k =
        .ok (ix.recordPart id q k) := copyFrom_window low present (by omega)
  have record := @part 0 ix.recordBytes (by omega)
  have degree := @part (ix.dim * 4) 4 (by omega)
  have each (j : Nat) (mem : j ∈ List.range (ix.degree (ix.record id))) :
      (ix.record id).word (ix.dim * 4 + 4 + j * 4) < VisitedSet.kEmpty ∧
        ∃ bytes, copyFrom (Regions.slice ix.file (ix.readOffset id) ix.readLen)
            (ix.recordOffset id - ix.readOffset id + ix.dim * 4 + 4 + j * 4) 4 = .ok bytes ∧
          wordAt bytes 0 = (ix.record id).word (ix.dim * 4 + 4 + j * 4) := by
    have below := List.mem_range.mp mem
    refine ⟨real_of_lt wf (wf.neighbors id inside _ (List.mem_map_of_mem mem)), ix.recordPart id
      (ix.dim * 4 + 4 + j * 4) 4, ?_, ?_⟩
    · rw [Nat.add_assoc, Nat.add_assoc, ← Nat.add_assoc (ix.dim * 4)]
      exact part (by omega)
    · rw [wordAt_recordPart (by omega), Nat.mul_zero, Nat.add_zero]
  obtain ⟨seen, ran, after⟩ := @foldlM_meetNeighbor want { s with recs := s.recs ++ [ix.cachedRecord id] } _ _ _ _
    each holds
  refine ⟨seen, ?_, after⟩
  rw [Nat.add_zero] at record
  rw [cacheNode, window, ok_bind]
  dsimp only
  rw [record, ok_bind, degree, ok_bind, wordAt_degree]
  exact ran

/-- **The loop takes all nodes that it met**, as many as are wanted at most. -/
theorem cacheLoop_spec (fuel : Nat) {head : Nat} (holds : s.seen.Holds s.order.toFinset)
    (inv : Bfs.Inv ix.lists ix.medoid want head s.order)
    (recs : s.recs = (s.order.take head).map ix.cachedRecord) (taken : head ≤ s.order.length)
    (few : s.order.length ≤ want) (enough : want < fuel + head) :
    ∃ s', ix.cacheLoop want fuel head s = .ok s' ∧ Bfs.Inv ix.lists ix.medoid want s'.order.length s'.order ∧
      s'.recs = s'.order.map ix.cachedRecord ∧ s'.order.length ≤ want := by
  induction fuel generalizing head s with
  | zero => omega
  | succ fuel ih =>
      rw [cacheLoop]
      rcases taken.eq_or_lt with rfl | more
      · rw [List.take_length] at recs
        rw [List.getElem?_eq_none (Nat.le_refl _)]
        exact ⟨s, rfl, inv, recs, few⟩
      · obtain ⟨id, next⟩ : ∃ id, s.order[head]? = some id := ⟨_, List.getElem?_eq_getElem more⟩
        have inside : id < ix.n := (graph_bounded wf ⟨fun _ => 0, fun _ => 0⟩).of_reaches
          (Bfs.reaches_iff.mpr (inv.reached id (List.mem_of_getElem? next)))
        have length : s.recs.length = head := by
          rw [recs, List.length_map, List.length_take]
          omega
        obtain ⟨seen, ran, after⟩ := @cacheNode_eq ix want s wf holds id inside
        obtain ⟨kept, small, -⟩ := @Bfs.foldl_meet Nat _ want s.order (ix.lists id)
        rw [next]
        dsimp only
        rw [if_pos (by omega), ran, ok_bind]
        refine ih after (Bfs.visit_inv inv next) ?_ (more.trans_le kept.length_le) (small few) (by omega)
        obtain ⟨rest, same⟩ := kept
        change s.recs ++ [ix.cachedRecord id] = ((Bfs.visit ix.lists want s.order id).take (head + 1)).map _
        rw [Bfs.visit, ← same, List.take_append_of_le_length more, List.take_add_one, next, List.map_append, recs]
        rfl

end Caching

/-! ## The cache -/

section OpenCache

variable {ix : DiskIndex}

/-- Nodes are sorted with their records. -/
theorem mergeSort_zip (order : List Nat) :
    ((order.zip (order.map ix.cachedRecord)).mergeSort fun a b => decide (a.1 ≤ b.1)) =
      (order.mergeSort fun a b => decide (a ≤ b)).map fun id => (id, ix.cachedRecord id) := by
  rw [← List.map_prod_left_eq_zip]
  refine (List.map_mergeSort (f := fun id => (id, ix.cachedRecord id)) fun a _ b _ => ?_).symm
  rfl

/-- The records of ascending ids, one behind the other. -/
theorem cacheOk_of_ascending {ids : List Nat} (ascending : ids.Pairwise (· < ·)) :
    ix.CacheOk ⟨ids, ids.flatMap ix.cachedRecord⟩ := by
  refine ⟨ascending, fun i inside j within => ?_⟩
  have width (i : Nat) (_ : i < ids.length) : (ix.cachedRecord (ids.getD i 0)).length = ix.recordBytes := by
    rw [cachedRecord, recordPart, List.length_map, List.length_range]
  have rows : ids.flatMap ix.cachedRecord = (List.range ids.length).flatMap fun i => ix.cachedRecord (ids.getD i 0) := by
    conv_lhs => rw [← map_getD_range ids]
    rw [List.flatMap_map]
  dsimp only
  rw [rows, Regions.getD_rows width inside within, List.getD_eq_getElem _ _ inside, cachedRecord,
    getD_recordPart within, Nat.zero_add]

theorem ascending_mergeSort {order : List Nat} (once : order.Nodup) :
    (order.mergeSort fun a b => decide (a ≤ b)).Pairwise (· < ·) := by
  have sorted := @List.pairwise_mergeSort Nat (fun a b => decide (a ≤ b))
    (fun a b c first second => decide_eq_true ((of_decide_eq_true first).trans (of_decide_eq_true second)))
    (fun a b => by simpa using Nat.le_total a b) order
  have distinct := (List.mergeSort_perm order fun a b => decide (a ≤ b)).nodup_iff.mpr once
  refine (sorted.and distinct).imp fun both => ?_
  exact Nat.lt_of_le_of_ne (of_decide_eq_true both.1) both.2

/-- **The cache is what a search met**, in the order of the ids, with the records. -/
theorem openCache_eq (wf : ix.WellFormed) {cacheNodes : Nat} (asked : 0 < cacheNodes) :
    ∃ order, Bfs.Inv ix.lists ix.medoid (min cacheNodes ix.n) order.length order ∧
      order.length ≤ min cacheNodes ix.n ∧
      ix.openCache cacheNodes = .ok ⟨order.mergeSort fun a b => decide (a ≤ b),
        (order.mergeSort fun a b => decide (a ≤ b)).flatMap ix.cachedRecord⟩ := by
  obtain ⟨seen, inserted, holds⟩ := VisitedSet.insert_holds VisitedSet.holds_init (real_of_lt wf wf.medoid)
  have medoid := wf.medoid
  obtain ⟨s, ran, inv, recs, few⟩ := @cacheLoop_spec ix (min cacheNodes ix.n) ⟨[ix.medoid], seen, []⟩ wf
    (min cacheNodes ix.n + 1) 0 holds Bfs.inv_start rfl (Nat.zero_le _) (by change 1 ≤ _; omega) (by omega)
  refine ⟨s.order, inv, few, ?_⟩
  rw [openCache, if_pos asked]
  dsimp only
  rw [inserted, ok_bind]
  dsimp only
  rw [ran, ok_bind, recs, List.length_map, List.take_length, mergeSort_zip, List.map_map, List.flatMap_map]
  simp only [Function.comp_def, List.map_id']
  rfl

theorem openCache_ok (wf : ix.WellFormed) (cacheNodes : Nat) :
    ∃ cache, ix.openCache cacheNodes = .ok cache ∧ ix.CacheOk cache := by
  rcases Nat.eq_zero_or_pos cacheNodes with rfl | asked
  · exact ⟨⟨[], []⟩, rfl, cacheOk_of_ascending .nil⟩
  · obtain ⟨order, inv, -, opened⟩ := openCache_eq wf asked
    exact ⟨_, opened, cacheOk_of_ascending (ascending_mergeSort inv.once)⟩

/-- **The cache has the nodes next to the medoid**: as many as were asked for or can be reached, and
all nodes of as many hops as it has room for. -/
theorem openCache_spec (wf : ix.WellFormed) (cacheNodes : Nat) :
    ∃ cache, ix.openCache cacheNodes = .ok cache ∧ ix.CacheOk cache ∧
      (∀ id ∈ cache.ids, ix.Reaches id) ∧ cache.ids.length = min cacheNodes ix.reachable.length ∧
      ∀ (hops : Nat) (ball : List Nat), (∀ id, Bfs.Within ix.lists ix.medoid hops id → id ∈ ball) →
        ball.length ≤ cacheNodes → ∀ id, Bfs.Within ix.lists ix.medoid hops id → id ∈ cache.ids := by
  rcases Nat.eq_zero_or_pos cacheNodes with rfl | cached
  · refine ⟨⟨[], []⟩, rfl, cacheOk_of_ascending .nil, fun id mem => absurd mem List.not_mem_nil,
      (Nat.zero_min _).symm, fun hops ball all few id within => ?_⟩
    rw [List.length_eq_zero_iff.mp (Nat.le_zero.mp few)] at all
    exact absurd (all id within) List.not_mem_nil
  · obtain ⟨order, inv, few, opened⟩ := openCache_eq wf cached
    have reached (id : Nat) (mem : id ∈ order) : ix.Reaches id := Bfs.reaches_iff.mpr (inv.reached id mem)
    have inside := inv.once.subperm fun id mem => (mem_reachable wf).mpr (reached id mem)
    have length : order.length = min cacheNodes ix.reachable.length := by
      have most := inside.length_le
      have nodes := ((nodup_reachable ix).subperm fun id mem => List.mem_range.mpr
        ((graph_bounded wf ⟨fun _ => 0, fun _ => 0⟩).of_reaches ((mem_reachable wf).mp mem))).length_le
      rw [List.length_range] at nodes
      rcases few.eq_or_lt with full | room
      · omega
      · have all := (nodup_reachable ix).subperm fun id mem => by
          obtain ⟨hops, within⟩ := Bfs.reaches_iff.mp ((mem_reachable wf).mp mem)
          exact Bfs.all_met inv (Nat.le_refl _) room within
        have least := all.length_le
        omega
    have ids := List.mergeSort_perm order fun a b => decide (a ≤ b)
    refine ⟨_, opened, cacheOk_of_ascending (ascending_mergeSort inv.once), fun id mem =>
      reached id (ids.mem_iff.mp mem), ids.length_eq.trans length, fun hops ball all enough id within => ?_⟩
    refine ids.mem_iff.mpr ?_
    rcases Nat.le_total cacheNodes ix.reachable.length with asked | whole
    · exact Bfs.ball_met inv all (by omega) within
    · have everything := inside.perm_of_length_le (by omega)
      exact everything.mem_iff.mpr ((mem_reachable wf).mpr (Bfs.reaches_iff.mpr ⟨hops, within⟩))

/-- Four of the five nodes are asked for: those of two hops, without the one of three. -/
theorem openCache_spec_fiveNodes : ∃ cache, fiveNodes.openCache 4 = .ok cache ∧ fiveNodes.CacheOk cache ∧
    cache.ids = [1, 2, 3, 4] := by
  obtain ⟨cache, opened, ok, -, length, balls⟩ := openCache_spec fiveNodes_wf 4
  have step {hops v : Nat} (within : Bfs.Within fiveNodes.lists 2 (hops + 1) v) :
      Bfs.Within fiveNodes.lists 2 hops v ∨
        ∃ u, Bfs.Within fiveNodes.lists 2 hops u ∧ (u < 5 → v ∈ fiveLists.getD u []) := by
    refine within.imp_right ?_
    rintro ⟨u, before, next⟩
    exact ⟨u, before, fun small => by rwa [← fiveNodes_neighbors small]⟩
  have one {v : Nat} (within : Bfs.Within fiveNodes.lists 2 1 v) : v ∈ [2, 4, 1] := by
    rcases step within with rfl | ⟨u, rfl, next⟩
    · decide
    · exact List.mem_cons_of_mem _ (next (by decide))
  have two {v : Nat} (within : Bfs.Within fiveNodes.lists 2 2 v) : v ∈ [2, 4, 1, 3] := by
    have lists : ∀ u ∈ [2, 4, 1], u < 5 ∧ ∀ v ∈ fiveLists.getD u [], v ∈ [2, 4, 1, 3] := by decide
    rcases step within with before | ⟨u, before, next⟩
    · exact List.mem_append_left [3] (one before)
    · obtain ⟨small, all⟩ := lists u (one before)
      exact all v (next small)
  have edge {a b hops : Nat} (within : Bfs.Within fiveNodes.lists 2 hops a) (small : a < 5)
      (next : b ∈ fiveLists.getD a []) : Bfs.Within fiveNodes.lists 2 (hops + 1) b :=
    .inr ⟨a, within, by rw [lists, fiveNodes_neighbors small]; exact next⟩
  have start : Bfs.Within fiveNodes.lists 2 0 2 := rfl
  have fourth := edge start (by decide) (show 4 ∈ fiveLists.getD 2 [] by decide)
  have first := edge start (by decide) (show 1 ∈ fiveLists.getD 2 [] by decide)
  have third := edge fourth (by decide) (show 3 ∈ fiveLists.getD 4 [] by decide)
  have held := balls 2 [2, 4, 1, 3] (fun v => two) (by decide)
  have among : [1, 2, 3, 4] ⊆ cache.ids := by
    intro v mem
    simp only [List.mem_cons, List.not_mem_nil, or_false] at mem
    rcases mem with rfl | rfl | rfl | rfl
    · exact held 1 (.inl first)
    · exact held 2 (.inl (.inl start))
    · exact held 3 third
    · exact held 4 (.inl fourth)
  have same : List.Perm [1, 2, 3, 4] cache.ids := by
    refine (List.Nodup.subperm (by decide) among).perm_of_length_le ?_
    rw [length, fiveNodes_reachable]
    decide
  exact ⟨cache, opened, ok, (List.Perm.eq_of_pairwise' (by decide) ok.sorted same).symm⟩

end OpenCache

end DiskIndex

/-- **An index that was stored is well formed**, with what was stored. -/
theorem Stored.wellFormed {n dim R medoid : Nat} {data : Nat → Bytes} {nbrs : Nat → List Nat} {w : NodeWriter}
    {pqM : Nat} {codes : Bytes}
    (stored : Stored n dim R medoid data nbrs ((DiskHeader.of n dim R medoid).index w.file pqM codes) w)
    (count : n < 2 ^ 32) (sized : dim * 4 + 4 + R * 4 + 4095 < 2 ^ 32) (inside : medoid < n)
    (fits : ∀ g < n, (nbrs g).length ≤ R ∧ ∀ v ∈ nbrs g, v < n) :
    ((DiskHeader.of n dim R medoid).index w.file pqM codes).WellFormed ∧
      ∀ g < n, ((DiskHeader.of n dim R medoid).index w.file pqM codes).vector
          (((DiskHeader.of n dim R medoid).index w.file pqM codes).record g) = data g ∧
        ((DiskHeader.of n dim R medoid).index w.file pqM codes).neighbors
          (((DiskHeader.of n dim R medoid).index w.file pqM codes).record g) = nbrs g := by
  have reads := stored.reads
  have window := stored.window
  have bytes := stored.bytes
  have own : ((DiskHeader.of n dim R medoid).index w.file pqM codes).dim = dim := rfl
  have file : ((DiskHeader.of n dim R medoid).index w.file pqM codes).file = w.file := rfl
  have shape : ∀ ix : DiskIndex, ix = (DiskHeader.of n dim R medoid).index w.file pqM codes →
      ix.dim = dim ∧ ix.R = R ∧ ix.n = n ∧ ix.medoid = medoid ∧
        (ix.recordBytes, ix.nodesPerBlock, ix.blocksPerNode) = diskLayout dim R := by
    rintro ix rfl
    exact ⟨rfl, rfl, rfl, rfl, rfl⟩
  obtain ⟨dim_eq, R_eq, n_eq, medoid_eq, layout⟩ := shape _ rfl
  generalize (DiskHeader.of n dim R medoid).index w.file pqM codes = ix at *
  have views (g : Nat) (below : g < n) : ix.vector (ix.record g) = data g ∧ ix.neighbors (ix.record g) = nbrs g := by
    obtain ⟨low, high, present⟩ := window g below
    obtain ⟨vec, list⟩ := DiskIndex.readNode_window low (by rw [file]; exact present) (by omega) (by omega)
      (reads g below)
    exact ⟨vec.symm, list.symm⟩
  refine ⟨?_, views⟩
  constructor
  · rw [layout, dim_eq, R_eq]
  · rw [dim_eq, R_eq, kBlock_eq]
    omega
  · rw [n_eq]
    exact count
  · rw [medoid_eq, n_eq]
    exact inside
  · intro g below
    rw [n_eq] at below
    have length := congrArg List.length (views g below).2
    rw [DiskIndex.neighbors, List.length_map, List.length_range] at length
    rw [length, R_eq]
    exact (fits g below).1
  · intro g below v mem
    rw [n_eq] at below ⊢
    rw [(views g below).2] at mem
    exact (fits g below).2 v mem
  · intro g below
    rw [n_eq] at below
    rw [file]
    exact (window g below).2.2

end HybridSearch.Engine
