/-
# Engine.VamanaInvariant -- what the rows of a graph under construction hold

`Valid` is the invariant: rows of distinct ids below `n`, none of its own node, within
the row's capacity.  Every rewrite of a row is a `Rewritten` graph: one row has a new
list and the others are as they were, so the invariant needs only the new list
(`Valid.rewrite`).  The three operations of the build and its cleanup each produce such
a list.
-/
import HybridSearch.Engine.VamanaBuild

namespace HybridSearch.Engine

open HybridSearch.Theory

set_option autoImplicit false

namespace VamanaIndex

/-- `n` rows of `C` slots. -/
structure Shape (g : VamanaIndex) (n C : Nat) : Prop where
  count : g.n = n
  width : g.R = C
  medoid : g.medoid < n
  rows : g.deg.length = n
  slots : g.adj.length = n * C
  degree : ∀ i < n, g.deg.getD i 0 ≤ C

/-- **The graph invariant.** -/
structure Valid (g : VamanaIndex) (n C : Nat) : Prop where
  shape : g.Shape n C
  distinct : ∀ i < n, (g.view.neighbors i).Nodup
  ids : ∀ i < n, ∀ v ∈ g.view.neighbors i, v < n ∧ v ≠ i

/-- A graph with a new list in one row. -/
structure Rewritten (g : VamanaIndex) (n C row : Nat) (out : List Nat) (g' : VamanaIndex) : Prop where
  shape : g'.Shape n C
  here : g'.view.neighbors row = out
  others : ∀ i < n, i ≠ row → g'.view.neighbors i = g.view.neighbors i

variable {g g' : VamanaIndex} {n C row : Nat} {out : List Nat}

theorem length_neighbors (g : VamanaIndex) (i : Nat) :
    (g.view.neighbors i).length = g.deg.getD i 0 := by
  rw [GraphView.neighbors, List.length_map, List.length_range]
  rfl

theorem Valid.wellFormed (valid : g.Valid n C) : g.view.WellFormed n := by
  obtain ⟨⟨count, rfl, medoid, rows, slots, degree⟩, distinct, ids⟩ := valid
  refine ⟨rows, slots, degree, ?_⟩
  intro id inside j used
  exact (ids id inside _ (List.mem_map_of_mem (List.mem_range.mpr used))).1

theorem Valid.row_eq (valid : g.Valid n C) {i : Nat} (inside : i < n) :
    g.view.row i = .ok (g.view.neighbors i) := valid.wellFormed.row_eq inside

/-- **A valid new list** keeps the invariant. -/
theorem Valid.rewrite (valid : g.Valid n C) (rewritten : g.Rewritten n C row out g')
    (nodup : out.Nodup) (ids : ∀ v ∈ out, v < n ∧ v ≠ row) : g'.Valid n C := by
  refine ⟨rewritten.shape, ?_, ?_⟩
  · intro i inside
    by_cases same : i = row
    · rw [same, rewritten.here]
      exact nodup
    · rw [rewritten.others i inside same]
      exact valid.distinct i inside
  · intro i inside v mem
    by_cases same : i = row
    · subst same
      rw [rewritten.here] at mem
      exact ids v mem
    · rw [rewritten.others i inside same] at mem
      exact valid.ids i inside v mem

/-! ## Writing rows -/

/-- A store into the slots of a row. -/
theorem storeRow_spec (shape : g.Shape n C) (inside : row < n) {slot : Nat} {ids : List Nat}
    (fits : slot + ids.length ≤ C) : ∃ g', g.storeRow row slot ids = .ok g' ∧
      g' = { g with adj := g'.adj } ∧ g'.adj.length = n * C ∧
      ∀ i < n, ∀ j < C, g'.adj.getD (i * C + j) 0 =
        if i = row ∧ slot ≤ j ∧ j < slot + ids.length then ids.getD (j - slot) 0
        else g.adj.getD (i * C + j) 0 := by
  obtain ⟨rfl, rfl, medoid, rows, slots, degree⟩ := shape
  have room := Regions.row_end_le (w := g.R) inside
  have fits' : row * g.R + slot + ids.length ≤ g.adj.length := by omega
  refine ⟨{ g with adj := Regions.write g.adj (row * g.R + slot) ids }, ?_, rfl, ?_, ?_⟩
  · rw [storeRow, if_pos ⟨inside, fits⟩]
  · rw [← slots]
    exact Regions.length_write fits'
  · intro i below j within
    dsimp only
    rw [Regions.getD_write fits']
    by_cases there : i = row ∧ slot ≤ j ∧ j < slot + ids.length
    · obtain ⟨rfl, low, high⟩ := there
      rw [if_pos ⟨by omega, by omega⟩, if_pos ⟨rfl, low, high⟩]
      congr 1
      omega
    · rw [if_neg there, if_neg]
      rintro ⟨low, high⟩
      obtain ⟨d, place⟩ := Nat.exists_eq_add_of_le low
      obtain ⟨same, offset⟩ := @Regions.rows_apart g.R i row j (slot + d) within (by omega) (by omega)
      exact there ⟨same, by omega, by omega⟩

/-- Degree and slots of a row make its list. -/
theorem neighbors_eq (shape : g.Shape n C) {i : Nat} {out : List Nat}
    (degree : g.deg.getD i 0 = out.length)
    (slots : ∀ j < out.length, g.adj.getD (i * C + j) 0 = out.getD j 0) :
    g.view.neighbors i = out := by
  refine List.ext_getElem ?_ ?_
  · rw [length_neighbors, degree]
  · intro j below below'
    rw [length_neighbors, degree] at below
    have slot := slots j below
    rw [← shape.width] at slot
    simp only [GraphView.neighbors, List.getElem_map, List.getElem_range]
    rw [List.getD_eq_getElem _ _ below'] at slot
    exact slot

theorem getD_neighbors (g : VamanaIndex) {i j : Nat} (below : j < g.deg.getD i 0) :
    (g.view.neighbors i).getD j 0 = g.adj.getD (i * g.R + j) 0 := by
  have below' : j < (g.view.neighbors i).length := by rwa [length_neighbors]
  rw [List.getD_eq_getElem _ _ below']
  simp only [GraphView.neighbors, List.getElem_map, List.getElem_range]
  rfl

/-- New degree and slots of one row, with the slots of all others kept. -/
theorem rewritten_of (shape : g.Shape n C) (inside : row < n) {adj : List Nat}
    (length : adj.length = n * C) (fits : out.length ≤ C)
    (here : ∀ j < out.length, adj.getD (row * C + j) 0 = out.getD j 0)
    (others : ∀ i < n, i ≠ row → ∀ j < C, adj.getD (i * C + j) 0 = g.adj.getD (i * C + j) 0) :
    g.Rewritten n C row out { g with adj := adj, deg := g.deg.set row out.length } := by
  have bound : row < g.deg.length := by rwa [shape.rows]
  have same : (g.deg.set row out.length).getD row 0 = out.length := by
    rw [List.getD_eq_getElem?_getD, List.getElem?_set_self bound, Option.getD_some]
  have other (i : Nat) (differ : i ≠ row) : (g.deg.set row out.length).getD i 0 = g.deg.getD i 0 := by
    rw [List.getD_eq_getElem?_getD, List.getElem?_set_ne (Ne.symm differ), List.getD_eq_getElem?_getD]
  have shape' : Shape { g with adj := adj, deg := g.deg.set row out.length } n C := by
    refine ⟨shape.count, shape.width, shape.medoid, ?_, length, ?_⟩
    · change (g.deg.set row out.length).length = n
      rw [List.length_set, shape.rows]
    · intro i below
      change (g.deg.set row out.length).getD i 0 ≤ C
      by_cases differ : i = row
      · rw [differ, same]
        exact fits
      · rw [other i differ]
        exact shape.degree i below
  refine ⟨shape', neighbors_eq shape' same here, ?_⟩
  intro i below differ
  refine neighbors_eq shape' ?_ ?_
  · rw [length_neighbors]
    exact other i differ
  · intro j used
    rw [length_neighbors] at used
    have within := used.trans_le (shape.degree i below)
    rw [getD_neighbors g used, shape.width]
    exact others i below differ j within

/-- **Installing an out-list.** -/
theorem installRow_spec (shape : g.Shape n C) (inside : row < n) (fits : out.length ≤ C) :
    ∃ g', g.installRow row out = .ok g' ∧ g.Rewritten n C row out g' := by
  obtain ⟨g₁, stored, rest₁, length₁, read₁⟩ :=
    @storeRow_spec g n C row shape inside 0 out (by omega)
  have shape₁ : g₁.Shape n C := by
    rw [rest₁]
    exact ⟨shape.count, shape.width, shape.medoid, shape.rows, length₁, shape.degree⟩
  obtain ⟨g₂, stored₂, rest₂, length₂, read₂⟩ :=
    @storeRow_spec g₁ n C row shape₁ inside out.length
      (List.replicate (g₁.R - out.length) kEmptySlot)
      (by rw [List.length_replicate, shape₁.width]; omega)
  refine ⟨{ g with adj := g₂.adj, deg := g.deg.set row out.length }, ?_, ?_⟩
  · rw [installRow, stored]
    change (g₁.storeRow row out.length _ >>= _) = _
    rw [stored₂]
    rw [rest₂, rest₁]
    rfl
  · refine rewritten_of shape inside length₂ fits ?_ ?_
    · intro j used
      rw [read₂ row inside j (by omega), if_neg (by omega), read₁ row inside j (by omega),
        if_pos ⟨rfl, by omega, by omega⟩, Nat.sub_zero]
    · intro i below differ j within
      rw [read₂ i below j within, if_neg (fun both => differ both.1), read₁ i below j within,
        if_neg (fun both => differ both.1)]

/-- **Appending to a row.** -/
theorem appendRow_spec (shape : g.Shape n C) (inside : row < n) {extra : List Nat}
    (fits : (g.view.neighbors row).length + extra.length ≤ C) :
    ∃ g', g.appendRow row (g.view.neighbors row).length extra = .ok g' ∧
      g.Rewritten n C row (g.view.neighbors row ++ extra) g' := by
  obtain ⟨g₁, stored, rest₁, length₁, read₁⟩ := storeRow_spec shape inside fits
  refine ⟨{ g with
    adj := g₁.adj, deg := g.deg.set row (g.view.neighbors row ++ extra).length }, ?_, ?_⟩
  · rw [appendRow, stored, List.length_append, rest₁]
    rfl
  · refine rewritten_of shape inside length₁ (by rwa [List.length_append]) ?_ ?_
    · intro j used
      rw [List.length_append] at used
      rw [read₁ row inside j (by omega)]
      by_cases new : (g.view.neighbors row).length ≤ j
      · rw [if_pos ⟨rfl, new, used⟩, List.getD_append_right _ _ _ _ new]
      · have old : j < (g.view.neighbors row).length := by omega
        rw [if_neg (fun both => new both.2.1), List.getD_append _ _ _ _ old,
          getD_neighbors g (by rwa [← length_neighbors]), shape.width]
    · intro i below differ j within
      rw [read₁ i below j within, if_neg (fun both => differ both.1)]

end VamanaIndex

namespace VamanaBuild

open VamanaIndex

variable {env : BuildData} {p : VamanaBuildParams} {n : Nat}

/-! ## Lists that a build makes -/

/-- An out-list of a point: distinct other points, at most `R` of them. -/
structure OutList (p : VamanaBuildParams) (n row : Nat) (out : List Nat) : Prop where
  nodup : out.Nodup
  short : out.length ≤ maxDegree p n
  ids : ∀ v ∈ out, v < n ∧ v ≠ row

/-- **Pruning candidates that are points** makes an out-list. -/
theorem outList_robustPrune {row : Nat} {cands : List Nat} (inside : ∀ v ∈ cands, v < n) (alpha : ℚ) :
    OutList p n row
      (robustPrune env.dist env.times row cands alpha (maxDegree p n) p.maxCandidates) where
  nodup := RobustPrune.nodup_robustPrune _ _ _
  short := RobustPrune.length_robustPrune_le _ _ _
  ids v mem := by
    have candidate := (RobustPrune.inPool_of_mem_robustPrune mem).1
    exact ⟨inside v candidate.1, candidate.2.1⟩

theorem maxDegree_eq : maxDegree p n = max 1 (min p.R (n - 1)) := by
  unfold maxDegree
  split_ifs <;> omega

theorem maxDegree_le_capacity : maxDegree p n ≤ capacity env p n := Nat.le_max_left _ _

/-- The state between rewrites. -/
structure Good (env : BuildData) (p : VamanaBuildParams) (n : Nat) (b : Building) : Prop where
  valid : b.graph.Valid n (capacity env p n)
  sound : GraphView.Sound b.scratch
  passed : ∀ g ∈ b.passed, g.Valid n (capacity env p n)

/-- A rewrite with a valid list keeps the state good. -/
theorem Good.update {b : Building} (good : Good env p n b) {row : Nat} {out : List Nat}
    {g : VamanaIndex} (rewritten : b.graph.Rewritten n (capacity env p n) row out g)
    (nodup : out.Nodup) (ids : ∀ v ∈ out, v < n ∧ v ≠ row) : Good env p n (b.update g) := by
  have valid := good.valid.rewrite rewritten nodup ids
  refine ⟨valid, good.sound, ?_⟩
  intro g' mem
  rcases List.mem_append.mp mem with old | last
  · exact good.passed g' old
  · rw [List.mem_singleton.mp last]
    exact valid

/-- Installing an out-list. -/
theorem install_good {b : Building} (good : Good env p n b) {row : Nat} (inside : row < n)
    {out : List Nat} (outList : OutList p n row out) :
    ∃ g, b.graph.installRow row out = .ok g ∧ Good env p n (b.update g) ∧
      b.graph.Rewritten n (capacity env p n) row out g := by
  obtain ⟨g, installed, rewritten⟩ :=
    installRow_spec good.valid.shape inside (outList.short.trans maxDegree_le_capacity)
  exact ⟨g, installed, good.update rewritten outList.nodup outList.ids, rewritten⟩

/-! ## The phases -/

section Phases

variable (small : n < 2 ^ 32) (searches : 1 ≤ p.L)

include small searches in
/-- Phase 1 for one point. -/
theorem searchPoint_spec (alpha : ℚ) {g : VamanaIndex} (valid : g.Valid n (capacity env p n))
    {scratch : GraphScratch} (sound : GraphView.Sound scratch) {pt : Nat} (inside : pt < n) :
    ∃ out scratch', searchPoint env p n alpha g scratch pt = .ok (out, scratch') ∧
      GraphView.Sound scratch' ∧ OutList p n pt out := by
  obtain ⟨s, expanded, visited, ran, collected, searched, sound'⟩ :=
    @GraphView.greedySearch_ends g.view n valid.wellFormed small g.medoid valid.shape.medoid
      (env.dist pt) p.L searches true scratch sound none (fun d mem => by cases mem) (n + 1)
      (Nat.lt_succ_self n)
  have bounded := valid.wellFormed.bounded valid.shape.medoid (env.dist pt)
  refine ⟨_, s, ?_, sound', @outList_robustPrune env p n pt (s.expanded ++ g.view.neighbors pt) ?_ alpha⟩
  · rw [searchPoint, ran]
    change (g.view.row pt >>= _) = _
    rw [valid.row_eq inside]
    rfl
  · intro v mem
    rcases List.mem_append.mp mem with found | old
    · rw [collected rfl] at found
      exact bounded.of_reaches (searched.reached v (searched.seen v found))
    · exact (valid.ids pt inside v old).1

/-- What phase 1 has made so far. -/
structure News (p : VamanaBuildParams) (n : Nat) (acc : List (Nat × List Nat) × GraphScratch) : Prop where
  sound : GraphView.Sound acc.2
  outLists : ∀ new ∈ acc.1, new.1 < n ∧ OutList p n new.1 new.2

include small searches in
/-- **Phase 1** ends, with an out-list for every point of the batch. -/
theorem searchAll_spec (alpha : ℚ) {g : VamanaIndex} (valid : g.Valid n (capacity env p n))
    (pts : List Nat) (inside : ∀ pt ∈ pts, pt < n) {acc : List (Nat × List Nat) × GraphScratch}
    (news : News p n acc) (room : acc.1.length + pts.length ≤ maxBatch env p n) :
    ∃ acc', pts.foldlM (searchStep env p n alpha g) acc = .ok acc' ∧ News p n acc' := by
  induction pts generalizing acc with
  | nil => exact ⟨acc, rfl, news⟩
  | cons pt rest ih =>
      obtain ⟨out, scratch, ran, sound, outList⟩ :=
        searchPoint_spec small searches alpha valid news.sound (inside pt (List.mem_cons_self ..))
      rw [List.length_cons] at room
      have step : searchStep env p n alpha g acc pt = .ok (acc.1 ++ [(pt, out)], scratch) := by
        rw [searchStep, ran]
        change (if acc.1.length < maxBatch env p n ∧ out.length ≤ maxDegree p n then _ else _) = _
        rw [if_pos ⟨by omega, outList.short⟩]
        rfl
      have news' : News p n (acc.1 ++ [(pt, out)], scratch) := by
        refine ⟨sound, ?_⟩
        intro new mem
        rcases List.mem_append.mp mem with old | last
        · exact news.outLists new old
        · rw [List.mem_singleton.mp last]
          exact ⟨inside pt (List.mem_cons_self ..), outList⟩
      obtain ⟨acc', run, done⟩ := ih (fun pt' mem => inside pt' (List.mem_cons_of_mem _ mem)) news'
        (by rw [List.length_append, List.length_singleton]; omega)
      refine ⟨acc', ?_, done⟩
      rw [List.foldlM_cons, step]
      exact run

/-- **Phase 2** installs the out-lists. -/
theorem installAll_spec (news : List (Nat × List Nat))
    (outLists : ∀ new ∈ news, new.1 < n ∧ OutList p n new.1 new.2) {b : Building}
    (good : Good env p n b) : ∃ b', installAll b news = .ok b' ∧ Good env p n b' := by
  unfold installAll
  induction news generalizing b with
  | nil => exact ⟨b, rfl, good⟩
  | cons new rest ih =>
      obtain ⟨inside, outList⟩ := outLists new (List.mem_cons_self ..)
      obtain ⟨g, installed, good', -⟩ := install_good good inside outList
      obtain ⟨b', run, done⟩ := ih (fun new' mem => outLists new' (List.mem_cons_of_mem _ mem)) good'
      refine ⟨b', ?_, done⟩
      rw [List.foldlM_cons, installed]
      exact run

/-- The pairs of a group are back edges of the batch. -/
theorem mem_groups {news : List (Nat × List Nat)} {group : List (Nat × Nat)}
    (mem : group ∈ groups news) {pair : Nat × Nat} (pair_mem : pair ∈ group) :
    ∃ new ∈ news, pair.2 = new.1 ∧ pair.1 ∈ new.2 := by
  unfold groups at mem
  have flat : pair ∈ ((news.flatMap fun new => new.2.map fun dst => (dst, new.1)).mergeSort
      fun a c => decide (a.1 ≤ c.1)) := by
    rw [← List.flatten_splitBy (fun a c => a.1 == c.1)
      ((news.flatMap fun new => new.2.map fun dst => (dst, new.1)).mergeSort
        fun a c => decide (a.1 ≤ c.1))]
    exact List.mem_flatten.mpr ⟨group, mem, pair_mem⟩
  rw [List.mem_mergeSort, List.mem_flatMap] at flat
  obtain ⟨new, new_mem, edge⟩ := flat
  obtain ⟨dst, dst_mem, rfl⟩ := List.mem_map.mp edge
  exact ⟨new, new_mem, rfl, dst_mem⟩

/-- **The extras of a row** are distinct sources that are neither in it nor the row's own node. -/
theorem extras_spec (dst : Nat) (row : List Nat) (group : List (Nat × Nat)) :
    (extras dst row group).Nodup ∧
      ∀ v ∈ extras dst row group, v ≠ dst ∧ v ∉ row ∧ ∃ pair ∈ group, pair.2 = v := by
  unfold extras
  induction group using List.reverseRecOn with
  | nil => exact ⟨List.nodup_nil, fun v mem => absurd mem List.not_mem_nil⟩
  | append_singleton group pair ih =>
      obtain ⟨nodup, origin⟩ := ih
      rw [List.foldl_append, List.foldl_cons, List.foldl_nil]
      have later : ∀ v, (v ≠ dst ∧ v ∉ row ∧ ∃ pair ∈ group, pair.2 = v) →
          v ≠ dst ∧ v ∉ row ∧ ∃ pair' ∈ group ++ [pair], pair'.2 = v := by
        rintro v ⟨other, new, pair', mem, is⟩
        exact ⟨other, new, pair', List.mem_append_left _ mem, is⟩
      split_ifs with skipped seen
      · exact ⟨nodup, fun v mem => later v (origin v mem)⟩
      · exact ⟨nodup, fun v mem => later v (origin v mem)⟩
      · rw [not_or] at skipped
        constructor
        · rw [List.nodup_append]
          refine ⟨nodup, List.nodup_singleton _, ?_⟩
          intro a a_mem b b_mem same
          exact seen (List.mem_singleton.mp b_mem ▸ same ▸ a_mem)
        · intro v mem
          rcases List.mem_append.mp mem with old | last
          · exact later v (origin v old)
          · rw [List.mem_singleton.mp last]
            exact ⟨skipped.1, skipped.2, pair, List.mem_append_right _ (List.mem_singleton_self _), rfl⟩

/-- **Phase 3** for one destination: nothing new, an append, or a list pruned again. -/
theorem backEdges_spec (alpha : ℚ) {b : Building} (good : Good env p n b)
    {group : List (Nat × Nat)} (inside : ∀ pair ∈ group, pair.1 < n ∧ pair.2 < n) :
    ∃ b', backEdges env p n alpha b group = .ok b' ∧ Good env p n b' := by
  cases group with
  | nil => exact ⟨b, rfl, good⟩
  | cons first rest =>
      obtain ⟨dst, src⟩ := first
      have below : dst < n := (inside (dst, src) (List.mem_cons_self ..)).1
      obtain ⟨nodup, origin⟩ := extras_spec dst (b.graph.view.neighbors dst) ((dst, src) :: rest)
      have ids : ∀ v ∈ b.graph.view.neighbors dst ++ extras dst (b.graph.view.neighbors dst)
          ((dst, src) :: rest), v < n ∧ v ≠ dst := by
        intro v mem
        rcases List.mem_append.mp mem with old | new
        · exact good.valid.ids dst below v old
        · obtain ⟨other, -, pair, pair_mem, rfl⟩ := origin v new
          exact ⟨(inside pair pair_mem).2, other⟩
      rw [backEdges, good.valid.row_eq below]
      simp only [bind, Except.bind]
      split_ifs with none room
      · exact ⟨b, rfl, good⟩
      · rw [good.valid.shape.width] at room
        obtain ⟨g, appended, rewritten⟩ := appendRow_spec good.valid.shape below room
        refine ⟨b.update g, ?_, good.update rewritten ?_ ids⟩
        · rw [appended]
          rfl
        · rw [List.nodup_append]
          refine ⟨good.valid.distinct dst below, nodup, ?_⟩
          intro a a_mem c c_mem same
          exact (origin c c_mem).2.1 (same ▸ a_mem)
      · obtain ⟨g, installed, good', -⟩ := install_good good below
          (@outList_robustPrune env p n dst _ (fun v mem => (ids v mem).1) alpha)
        refine ⟨b.update g, ?_, good'⟩
        rw [installed]
        rfl

theorem foldlM_backEdges_spec (alpha : ℚ) (groups : List (List (Nat × Nat)))
    (inside : ∀ group ∈ groups, ∀ pair ∈ group, pair.1 < n ∧ pair.2 < n) {b : Building}
    (good : Good env p n b) :
    ∃ b', groups.foldlM (backEdges env p n alpha) b = .ok b' ∧ Good env p n b' := by
  induction groups generalizing b with
  | nil => exact ⟨b, rfl, good⟩
  | cons group rest ih =>
      obtain ⟨b₁, step, good₁⟩ := backEdges_spec alpha good (inside group (List.mem_cons_self ..))
      obtain ⟨b', run, done⟩ := ih (fun group' mem => inside group' (List.mem_cons_of_mem _ mem)) good₁
      refine ⟨b', ?_, done⟩
      rw [List.foldlM_cons, step]
      exact run

include small searches in
/-- **A batch** keeps the invariant. -/
theorem batch_spec (alpha : ℚ) {b : Building} (good : Good env p n b) {pts : List Nat}
    (inside : ∀ pt ∈ pts, pt < n) (room : pts.length ≤ maxBatch env p n) :
    ∃ b', batch env p n alpha b pts = .ok b' ∧ Good env p n b' := by
  obtain ⟨acc, searched, news⟩ :=
    @searchAll_spec env p n small searches alpha b.graph good.valid pts inside ([], b.scratch)
      ⟨good.sound, fun new mem => absurd mem List.not_mem_nil⟩ (by rw [List.length_nil]; omega)
  obtain ⟨b₁, installed, good₁⟩ :=
    @installAll_spec env p n acc.1 news.outLists { b with scratch := acc.2 }
      ⟨good.valid, news.sound, good.passed⟩
  obtain ⟨b₂, appended, good₂⟩ := foldlM_backEdges_spec alpha (groups acc.1) (by
    intro group mem pair pair_mem
    obtain ⟨new, new_mem, src, dst⟩ := mem_groups mem pair_mem
    obtain ⟨below, outList⟩ := news.outLists new new_mem
    exact ⟨(outList.ids _ dst).1, src ▸ below⟩) good₁
  refine ⟨b₂, ?_, good₂⟩
  rw [batch, searchAll, searched]
  change (installAll { b with scratch := acc.2 } acc.1 >>= _) = _
  rw [installed]
  exact appended

/-! ## The passes -/

/-- The points of a permuted order are points. -/
theorem mem_order {v : Nat} (points : 0 < n) (mem : v ∈ order env n) : v < n := by
  have kept : ∀ (ts xs : List Nat), (∀ v ∈ xs, v < n) →
      ∀ v ∈ ts.foldl (fun xs t => swapAt xs (n - t - 1) (env.rng t % (n - t))) xs, v < n := by
    intro ts
    induction ts with
    | nil => exact fun xs inside => inside
    | cons t ts ih =>
        intro xs inside
        refine ih _ ?_
        have read (i : Nat) : xs.getD i 0 < n := by
          by_cases below : i < xs.length
          · rw [List.getD_eq_getElem _ _ below]
            exact inside _ (List.getElem_mem below)
          · rw [List.getD_eq_default _ _ (Nat.not_lt.mp below)]
            exact points
        intro v mem
        rcases List.mem_or_eq_of_mem_set mem with old | rfl
        · rcases List.mem_or_eq_of_mem_set old with old | rfl
          · exact inside v old
          · exact read _
        · exact read _
  exact kept _ _ (fun v mem => List.mem_range.mp mem) v mem

include small searches in
/-- **A pass** ends, and keeps the invariant. -/
theorem batches_spec (points : 0 < n) (alpha : ℚ) (fuel pos size : Nat) (enough : n - pos < fuel)
    (some : 1 ≤ size) (fits : size ≤ maxBatch env p n) {b : Building} (good : Good env p n b) :
    ∃ b', batches env p n alpha fuel pos size b = .ok b' ∧ Good env p n b' := by
  induction fuel generalizing pos size b with
  | zero => exact absurd enough (Nat.not_lt_zero _)
  | succ fuel ih =>
      rw [batches]
      split_ifs with more
      · obtain ⟨b₁, step, good₁⟩ := @batch_spec env p n small searches alpha b good
          (((order env n).drop pos).take (min size (n - pos)))
          (fun pt mem => mem_order points (List.mem_of_mem_drop (List.mem_of_mem_take mem)))
          ((List.length_take_le _ _).trans ((Nat.min_le_left _ _).trans fits))
        have one : 1 ≤ maxBatch env p n := Nat.le_max_left _ _
        obtain ⟨b', run, done⟩ := ih (pos + min size (n - pos)) (min (maxBatch env p n) (size * 2))
          (by omega) (by omega) (Nat.min_le_left _ _) good₁
        refine ⟨b', ?_, done⟩
        dsimp only
        rw [step]
        exact run
      · exact ⟨b, rfl, good⟩

include small searches in
theorem passes_spec (points : 0 < n) (alphas : List ℚ) {b : Building} (good : Good env p n b) :
    ∃ b', alphas.foldlM (fun b alpha => batches env p n alpha (n + 1) 0 1 b) b = .ok b' ∧
      Good env p n b' := by
  induction alphas generalizing b with
  | nil => exact ⟨b, rfl, good⟩
  | cons alpha rest ih =>
      obtain ⟨b₁, step, good₁⟩ := batches_spec small searches points alpha (n + 1) 0 1 (by omega)
        (Nat.le_refl 1) (Nat.le_max_left _ _) good
      obtain ⟨b', run, done⟩ := ih good₁
      refine ⟨b', ?_, done⟩
      rw [List.foldlM_cons, step]
      exact run

end Phases

/-! ## Cleanup and compaction -/

/-- The rows below `k` are cut to `R`. -/
def Cut (p : VamanaBuildParams) (n k : Nat) (g : VamanaIndex) : Prop :=
  ∀ i < k, (g.view.neighbors i).length ≤ maxDegree p n

/-- One row: kept, or pruned and installed. -/
theorem cleanRow_spec {b : Building} (good : Good env p n b) {i : Nat} (inside : i < n)
    (cut : Cut p n i b.graph) :
    ∃ b', cleanRow env p n b i = .ok b' ∧ Good env p n b' ∧ Cut p n (i + 1) b'.graph := by
  rw [cleanRow, good.valid.row_eq inside]
  simp only [bind, Except.bind]
  split_ifs with short
  · refine ⟨b, rfl, good, ?_⟩
    intro j below
    rcases Nat.lt_succ_iff_lt_or_eq.mp below with before | rfl
    · exact cut j before
    · exact short
  · have outList := @outList_robustPrune env p n i (b.graph.view.neighbors i)
      (fun v mem => (good.valid.ids i inside v mem).1) p.alpha
    obtain ⟨g, installed, good', rewritten⟩ := install_good good inside outList
    refine ⟨b.update g, ?_, good', ?_⟩
    · rw [installed]
      rfl
    · intro j below
      change (g.view.neighbors j).length ≤ _
      rcases Nat.lt_succ_iff_lt_or_eq.mp below with before | rfl
      · rw [rewritten.others j (before.trans inside) (Nat.ne_of_lt before)]
        exact cut j before
      · rw [rewritten.here]
        exact outList.short

/-- **The cleanup** cuts every row. -/
theorem cleanRows_spec {b : Building} (good : Good env p n b) {k : Nat} (upTo : k ≤ n) :
    ∃ b', (List.range k).foldlM (cleanRow env p n) b = .ok b' ∧ Good env p n b' ∧
      Cut p n k b'.graph := by
  induction k with
  | zero => exact ⟨b, rfl, good, fun i below => absurd below (Nat.not_lt_zero i)⟩
  | succ k ih =>
      obtain ⟨b₁, run, good₁, cut⟩ := ih (Nat.le_of_succ_le upTo)
      obtain ⟨b₂, step, good₂, cut'⟩ := cleanRow_spec good₁ upTo cut
      refine ⟨b₂, ?_, good₂, cut'⟩
      rw [List.range_succ, List.foldlM_append, run]
      change List.foldlM (cleanRow env p n) b₁ [k] = _
      rw [List.foldlM_cons, step]
      rfl

/-- **Compaction** keeps the lists of a graph whose degrees are at most `R`. -/
theorem compact_spec {g : VamanaIndex} {C R : Nat} (valid : g.Valid n C) (room : R ≤ C)
    (short : ∀ i < n, (g.view.neighbors i).length ≤ R) :
    (compact g R).Valid n R ∧
      ∀ i < n, (compact g R).view.neighbors i = g.view.neighbors i := by
  obtain ⟨⟨rfl, rfl, medoid, rows, slots, degree⟩, distinct, ids⟩ := valid
  unfold compact
  split_ifs with differ
  · have width : ∀ i < g.n, ((g.adj.drop (i * g.R)).take R).length = R := by
      intro i below
      have room := @Regions.row_end_le g.R i g.n below
      rw [List.length_take, List.length_drop, slots]
      omega
    have shape : Shape { g with
        R := R, adj := (List.range g.n).flatMap fun i => (g.adj.drop (i * g.R)).take R } g.n R := by
      refine ⟨rfl, rfl, medoid, rows, Regions.length_rows g.n width, ?_⟩
      intro i below
      have degree := short i below
      rwa [length_neighbors] at degree
    have same : ∀ i < g.n, GraphView.neighbors (view { g with
        R := R, adj := (List.range g.n).flatMap fun i => (g.adj.drop (i * g.R)).take R }) i =
          g.view.neighbors i := by
      intro i below
      refine neighbors_eq shape (length_neighbors g i).symm ?_
      intro j used
      have within := used.trans_le (short i below)
      rw [length_neighbors] at used
      rw [getD_neighbors g used]
      change ((List.range g.n).flatMap _).getD (i * R + j) 0 = _
      rw [Regions.getD_rows width below within, List.getD_eq_getElem?_getD,
        List.getElem?_take_of_lt within, List.getElem?_drop, List.getD_eq_getElem?_getD]
    refine ⟨⟨shape, ?_, ?_⟩, same⟩
    · intro i below
      rw [same i below]
      exact distinct i below
    · intro i below v mem
      rw [same i below] at mem
      exact ids i below v mem
  · rw [not_not] at differ
    subst differ
    exact ⟨⟨⟨rfl, rfl, medoid, rows, slots, degree⟩, distinct, ids⟩, fun i below => rfl⟩

/-! ## Initialisation -/

theorem nearestIn_lt (toMean : Nat → ℚ) (points : 0 < n) {s e : Nat} (inside : e ≤ n) :
    (nearestIn toMean s e).2 < n := by
  have scan : ∀ (is : List Nat) (best : WithTop ℚ × Nat), (∀ i ∈ is, i < n) → best.2 < n →
      (is.foldl (fun best i =>
        if (toMean i : WithTop ℚ) < best.1 then ((toMean i : WithTop ℚ), i) else best) best).2 < n := by
    intro is
    induction is with
    | nil => exact fun best _ below => below
    | cons i is ih =>
        intro best inside below
        rw [List.foldl_cons]
        refine ih _ (fun j mem => inside j (List.mem_cons_of_mem _ mem)) ?_
        split_ifs
        · exact inside i (List.mem_cons_self ..)
        · exact below
  refine scan _ _ ?_ points
  intro i mem
  rw [List.mem_range'_1] at mem
  omega

/-- The medoid is a point. -/
theorem findMedoid_lt (toMean : Nat → ℚ) (points : 0 < n) : findMedoid toMean n < n := by
  have least : ∀ (bs : List (WithTop ℚ × Nat)) (b : WithTop ℚ × Nat), (∀ b ∈ bs, b.2 < n) → b.2 < n →
      (bs.foldl (fun least b => if pairLess b least then b else least) b).2 < n := by
    intro bs
    induction bs with
    | nil => exact fun b _ below => below
    | cons b bs ih =>
        intro best inside below
        rw [List.foldl_cons]
        refine ih _ (fun b' mem => inside b' (List.mem_cons_of_mem _ mem)) ?_
        split_ifs
        · exact inside b (List.mem_cons_self ..)
        · exact below
  have chunks : ∀ b ∈ (List.range 256).map fun c => nearestIn toMean (c * ((n + 256 - 1) / 256))
      (min n (c * ((n + 256 - 1) / 256) + (n + 256 - 1) / 256)), b.2 < n := by
    intro b mem
    obtain ⟨c, -, rfl⟩ := List.mem_map.mp mem
    exact nearestIn_lt toMean points (Nat.min_le_left _ _)
  refine least _ _ (fun b mem => chunks b (List.mem_of_mem_tail mem)) ?_
  exact nearestIn_lt toMean points (Nat.min_le_left _ _)

/-- Draws are added until the row is full. -/
theorem drawRow_spec {R i : Nat} (points : 0 < n) {fuel s : Nat} {row out : List Nat}
    (nodup : row.Nodup) (short : row.length ≤ R) (ids : ∀ v ∈ row, v < n ∧ v ≠ i)
    (drawn : drawRow n R i fuel s row = .ok out) :
    out.Nodup ∧ out.length ≤ R ∧ ∀ v ∈ out, v < n ∧ v ≠ i := by
  induction fuel generalizing s row with
  | zero => cases drawn
  | succ fuel ih =>
      rw [drawRow] at drawn
      split_ifs at drawn with more
      · dsimp only at drawn
        split_ifs at drawn with taken
        · exact ih nodup short ids drawn
        · rw [not_or] at taken
          refine ih ?_ ?_ ?_ drawn
          · rw [List.nodup_append]
            refine ⟨nodup, List.nodup_singleton _, ?_⟩
            intro a a_mem c c_mem same
            exact taken.2 (List.mem_singleton.mp c_mem ▸ same ▸ a_mem)
          · rw [List.length_append, List.length_singleton]
            exact more
          · intro v mem
            rcases List.mem_append.mp mem with old | last
            · exact ids v old
            · rw [List.mem_singleton.mp last]
              exact ⟨(Nat.mod_le _ _).trans_lt (Nat.mod_lt _ points), taken.1⟩
      · injection drawn with drawn
        subst drawn
        exact ⟨nodup, short, ids⟩

theorem initRow_spec {fuel i : Nat} {row : List Nat} (inside : i < n)
    (drawn : initRow p n fuel i = .ok row) : OutList p n i row := by
  rw [initRow] at drawn
  split_ifs at drawn with one few
  · injection drawn with drawn
    subst drawn
    exact ⟨List.nodup_nil, Nat.zero_le _, fun v mem => absurd mem List.not_mem_nil⟩
  · injection drawn with drawn
    subst drawn
    refine ⟨List.nodup_range.filter _, ?_, ?_⟩
    · have fewer := @List.length_filter_lt_length_iff_exists _ (fun j => decide (j ≠ i)) (List.range n)
      have strict := fewer.mpr ⟨i, List.mem_range.mpr inside, by simp⟩
      rw [List.length_range] at strict
      omega
    · intro v mem
      rw [List.mem_filter, List.mem_range, decide_eq_true_eq] at mem
      exact mem
  · obtain ⟨nodup, short, ids⟩ := drawRow_spec (Nat.zero_lt_of_lt inside) List.nodup_nil
      (Nat.zero_le _) (fun v mem => absurd mem List.not_mem_nil) drawn
    exact ⟨nodup, short, ids⟩

/-- The rows below `k` are drawn, the others are empty. -/
structure Filled (env : BuildData) (p : VamanaBuildParams) (n k : Nat) (g : VamanaIndex) : Prop where
  valid : g.Valid n (capacity env p n)
  empty : ∀ i < n, k ≤ i → g.view.neighbors i = []

theorem emptyGraph_filled (points : 0 < n) : Filled env p n 0 (emptyGraph env p n) := by
  have degree (i : Nat) (below : i < n) : (emptyGraph env p n).deg.getD i 0 = 0 := by
    unfold emptyGraph
    rw [List.getD_eq_getElem _ _ (by rwa [List.length_replicate]), List.getElem_replicate]
  have empty : ∀ i < n, (emptyGraph env p n).view.neighbors i = [] := by
    intro i below
    rw [← List.length_eq_zero_iff, length_neighbors, degree i below]
  refine ⟨⟨⟨rfl, rfl, findMedoid_lt _ points, List.length_replicate, List.length_replicate, ?_⟩, ?_, ?_⟩,
    fun i below _ => empty i below⟩
  · intro i below
    rw [degree i below]
    exact Nat.zero_le _
  · intro i below
    rw [empty i below]
    exact List.nodup_nil
  · intro i below v mem
    rw [empty i below] at mem
    exact absurd mem List.not_mem_nil

theorem fillRow_spec {fuel k : Nat} {g : VamanaIndex} (filled : Filled env p n k g) (inside : k < n)
    {row : List Nat} (drawn : initRow p n fuel k = .ok row) :
    ∃ g', fillRow p n fuel g k = .ok g' ∧ Filled env p n (k + 1) g' := by
  have outList := initRow_spec inside drawn
  have none := filled.empty k inside (Nat.le_refl k)
  obtain ⟨g', appended, rewritten⟩ := @appendRow_spec g n (capacity env p n) k filled.valid.shape
    inside row (by
      rw [none, List.length_nil, Nat.zero_add]
      exact outList.short.trans maxDegree_le_capacity)
  rw [none, List.length_nil] at appended
  rw [none, List.nil_append] at rewritten
  refine ⟨g', ?_, filled.valid.rewrite rewritten outList.nodup outList.ids, ?_⟩
  · rw [fillRow, drawn]
    exact appended
  · intro i below later
    rw [rewritten.others i below (by omega)]
    exact filled.empty i below (Nat.le_of_succ_le later)

/-- Rows drawn for all nodes below `k` fill the graph up to there. -/
theorem fillRows_spec (points : 0 < n) {fuel k : Nat} (upTo : k ≤ n)
    (drawn : ∀ i < k, ∃ row, initRow p n fuel i = .ok row) :
    ∃ g, (List.range k).foldlM (fillRow p n fuel) (emptyGraph env p n) = .ok g ∧
      Filled env p n k g := by
  induction k with
  | zero => exact ⟨_, rfl, emptyGraph_filled points⟩
  | succ k ih =>
      obtain ⟨g₁, run, filled⟩ :=
        ih (Nat.le_of_succ_le upTo) (fun i below => drawn i (Nat.lt_succ_of_lt below))
      obtain ⟨row, draws⟩ := drawn k (Nat.lt_succ_self k)
      obtain ⟨g₂, step, filled'⟩ := fillRow_spec filled upTo draws
      refine ⟨g₂, ?_, filled'⟩
      rw [List.range_succ, List.foldlM_append, run]
      change List.foldlM (fillRow p n fuel) g₁ [k] = _
      rw [List.foldlM_cons, step]
      rfl

/-- An initialisation that ends has drawn all its rows. -/
theorem drawn_of_initGraph {fuel k : Nat} {g : VamanaIndex}
    (initialised : (List.range k).foldlM (fillRow p n fuel) (emptyGraph env p n) = .ok g) :
    ∀ i < k, ∃ row, initRow p n fuel i = .ok row := by
  induction k generalizing g with
  | zero => exact fun i below => absurd below (Nat.not_lt_zero i)
  | succ k ih =>
      rw [List.range_succ, List.foldlM_append, bind_eq_ok] at initialised
      obtain ⟨g₁, before, last⟩ := initialised
      rw [List.foldlM_cons, bind_eq_ok] at last
      obtain ⟨g₂, step, -⟩ := last
      rw [fillRow, bind_eq_ok] at step
      obtain ⟨row, draws, -⟩ := step
      intro i below
      rcases Nat.lt_succ_iff_lt_or_eq.mp below with earlier | rfl
      · exact ih before i earlier
      · exact ⟨row, draws⟩

/-- **The random initialisation** makes a valid graph. -/
theorem initGraph_valid (points : 0 < n) {fuel : Nat} {g : VamanaIndex}
    (initialised : initGraph env p n fuel = .ok g) : g.Valid n (capacity env p n) := by
  obtain ⟨g', run, filled⟩ :=
    fillRows_spec points (Nat.le_refl n) (drawn_of_initGraph initialised)
  rw [initGraph, run] at initialised
  injection initialised with same
  exact same ▸ filled.valid

/-- With at most `R` other points nothing is drawn at random. -/
theorem initGraph_few (points : 0 < n) (few : n - 1 ≤ p.R) (fuel : Nat) :
    ∃ g, initGraph env p n fuel = .ok g := by
  obtain ⟨g, run, -⟩ := @fillRows_spec env p n points fuel n (Nat.le_refl n) (by
    intro i _
    have all : n - 1 ≤ maxDegree p n := by
      rw [maxDegree_eq]
      omega
    rw [initRow]
    split_ifs
    · exact ⟨_, rfl⟩
    · exact ⟨_, rfl⟩)
  exact ⟨g, run⟩

/-! ## The build -/

/-- What the build makes of an initialised graph. -/
theorem finish_spec (points : 0 < n) (small : n < 2 ^ 32) (searches : 1 ≤ p.L) {g : VamanaIndex}
    (valid : g.Valid n (capacity env p n)) :
    ∃ built, finish env p n g = .ok built ∧
      (∀ g' ∈ built.passed, g'.Valid n (capacity env p n)) ∧
      built.uncompacted.Valid n (capacity env p n) ∧
      built.index.Valid n (maxDegree p n) ∧
      ∀ i < n, built.index.view.neighbors i = built.uncompacted.view.neighbors i := by
  have start : Good env p n ⟨g, ⟨VisitedSet.init, CandidateList.reset 0, []⟩, [g]⟩ := by
    refine ⟨valid, ⟨∅, VisitedSet.holds_init⟩, ?_⟩
    intro g' mem
    rw [List.mem_singleton.mp mem]
    exact valid
  obtain ⟨b₁, passed, good₁⟩ := passes_spec small searches points (alphas p) start
  obtain ⟨b₂, cleaned, good₂, cut⟩ := cleanRows_spec good₁ (Nat.le_refl n)
  obtain ⟨compacted, same⟩ := compact_spec good₂.valid maxDegree_le_capacity cut
  refine ⟨⟨compact b₂.graph (maxDegree p n), b₂.graph, b₂.passed⟩, ?_, good₂.passed, good₂.valid,
    compacted, same⟩
  rw [finish, passed]
  change ((List.range n).foldlM (cleanRow env p n) b₁ >>= _) = _
  rw [cleaned]
  rfl

/-- **The graph of a build.**  From the random initialisation on the build ends without a store
outside a row.  Every graph it passes through has rows of distinct other points within the
capacity; the compacted rows are those of the graph before, of at most `maxDegree` points. -/
theorem build_valid (env : BuildData) (p : VamanaBuildParams) {n : Nat} (points : 1 ≤ n)
    (small : n < 2 ^ 32) (searches : 1 ≤ p.L) {fuel : Nat} {g : VamanaIndex}
    (initialised : initGraph env p n fuel = .ok g) :
    ∃ built, build env p n fuel = .ok built ∧
      (∀ g' ∈ built.passed, g'.Valid n (capacity env p n)) ∧
      built.uncompacted.Valid n (capacity env p n) ∧
      built.index.Valid n (max 1 (min p.R (n - 1))) ∧
      ∀ i < n, built.index.view.neighbors i = built.uncompacted.view.neighbors i := by
  obtain ⟨built, finished, passed, uncompacted, valid, same⟩ :=
    finish_spec points small searches (initGraph_valid points initialised)
  rw [maxDegree_eq] at valid
  refine ⟨built, ?_, passed, uncompacted, valid, same⟩
  rw [build, if_neg (by omega), initialised]
  exact finished

/-- Two points on a line. -/
theorem build_valid_pair : ∃ built C,
    build ⟨fun i j => ((i : ℚ) - j) ^ 2, fun i => ((i : ℚ) - 1 / 2) ^ 2, fun a d => a * d,
      fun x => u32 ⌊x⌋.toNat, fun x => ⌊x⌋.toNat, fun t => t⟩ ⟨1, 1, 1, true, 0, 0, 1, 42⟩ 2 0 = .ok built ∧
    (∀ g' ∈ built.passed, g'.Valid 2 C) ∧ built.index.Valid 2 1 := by
  obtain ⟨g, initialised⟩ :=
    @initGraph_few ⟨fun i j => ((i : ℚ) - j) ^ 2, fun i => ((i : ℚ) - 1 / 2) ^ 2, fun a d => a * d,
      fun x => u32 ⌊x⌋.toNat, fun x => ⌊x⌋.toNat, fun t => t⟩ ⟨1, 1, 1, true, 0, 0, 1, 42⟩ 2
      (by decide) (by decide) 0
  obtain ⟨built, ran, passed, -, index, -⟩ :=
    build_valid _ _ (by decide) (by decide) (by decide) initialised
  exact ⟨built, _, ran, passed, index⟩

end VamanaBuild

end HybridSearch.Engine
