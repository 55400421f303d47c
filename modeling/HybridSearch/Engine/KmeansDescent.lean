/-
# Engine.KmeansDescent -- k-means never gets worse

An update writes whole rows, so what it leaves in a row is read off row by row:
a cluster with points has its mean there (`update_row`), since only rows of empty
clusters are written again.  One step then lowers the squared error of each cluster
for the old labels (`sum_update_le`), and new labels lower it further.
-/
import HybridSearch.Engine.Kmeans

namespace HybridSearch.Engine.Kmeans

open HybridSearch.Theory

set_option autoImplicit false

section Update

variable (data : Floats) (n dim k : Nat)

/-- The points of a cluster. -/
def members (labels : Nat → Nat) (j : Nat) : Finset Nat := {i ∈ Finset.range n | labels i = j}

theorem le_chunks : n ≤ kChunks * per n := by
  unfold per kChunks
  omega

theorem clusterCount_eq (labels : Nat → Nat) (j : Nat) :
    clusterCount n labels j = (members n labels j).card := by
  have sums := Clusters.sum_chunks (le_chunks n) labels (fun _ => 1) j
  rw [Finset.sum_const, smul_eq_mul, mul_one] at sums
  rw [members, ← sums, clusterCount, List.foldl_map.symm.trans List.sum_eq_foldl.symm]

theorem clusterSum_eq (labels : Nat → Nat) (j d : Nat) :
    clusterSum data n dim labels j d = ∑ i ∈ members n labels j, data (i * dim + d) := by
  have sums := Clusters.sum_chunks (le_chunks n) labels (fun i => data (i * dim + d)) j
  rw [members, ← sums, clusterSum, List.foldl_map.symm.trans List.sum_eq_foldl.symm]

/-- The mean of a cluster's points. -/
def meanRow (labels : Nat → Nat) (j : Nat) : Floats := fun d =>
  (∑ i ∈ members n labels j, data (i * dim + d)) / (members n labels j).card

/-- The means of the clusters below `k`; the empty ones are collected. -/
theorem means_spec (labels : Nat → Nat) (C : Floats) :
    (∀ j < k, (members n labels j).Nonempty → ∀ t < dim,
      (means data n dim k labels C).1.shift (j * dim) t = meanRow data n dim labels j t) ∧
    ∀ j ∈ (means data n dim k labels C).2, members n labels j = ∅ := by
  induction k with
  | zero =>
      constructor
      · intro j inside
        omega
      · intro j mem
        cases mem
  | succ k ih =>
      obtain ⟨rows, empties⟩ := ih
      unfold means at rows empties ⊢
      rw [List.range_succ, List.foldl_append, List.foldl_cons, List.foldl_nil]
      simp only [clusterCount_eq, clusterSum_eq, Finset.card_eq_zero] at rows empties ⊢
      split_ifs with none
      · constructor
        · intro j inside nonempty t within
          have earlier : j < k := by
            rcases Nat.lt_succ_iff_lt_or_eq.mp inside with earlier | rfl
            · exact earlier
            · exact absurd none nonempty.ne_empty
          exact rows j earlier nonempty t within
        · intro j mem
          rcases List.mem_append.mp mem with before | last
          · exact empties j before
          · rwa [List.mem_singleton.mp last]
      · constructor
        · intro j inside nonempty t within
          rw [copyRow_row within]
          split_ifs with same
          · subst same
            rfl
          · exact rows j (by omega) nonempty t within
        · exact empties

/-- **After an update** a cluster with points has their mean. -/
theorem update_row (C : Floats) {j : Nat} (inside : j < k)
    (nonempty : (members n (labelsOf (assign data n dim k C)) j).Nonempty) {t : Nat} (within : t < dim) :
    (update data n dim k C).shift (j * dim) t =
      meanRow data n dim (labelsOf (assign data n dim k C)) j t := by
  obtain ⟨rows, empties⟩ := means_spec data n dim k (labelsOf (assign data n dim k C)) C
  rw [← rows j inside nonempty t within]
  change (reseed data n dim (distsOf (assign data n dim k C))
    (means data n dim k (labelsOf (assign data n dim k C)) C).2
    (means data n dim k (labelsOf (assign data n dim k C)) C).1).shift (j * dim) t = _
  unfold reseed
  refine foldl_copyRow_row within _ _ _ ?_ _
  intro e mem same
  have bound : e < (means data n dim k (labelsOf (assign data n dim k C)) C).2.length :=
    (List.mem_range.mp mem).trans_le (Nat.min_le_left _ _)
  have empty := empties _ (List.getElem_mem bound)
  rw [List.getD_eq_getElem?_getD, List.getElem?_eq_getElem bound, Option.getD_some] at same
  rw [same] at empty
  exact nonempty.ne_empty empty

end Update

/-! ## Assignments -/

section Assign

variable {data : Floats} {n dim k : Nat}

/-- The distance of a point to a centroid. -/
def dist (data : Floats) (dim : Nat) (C : Floats) (i j : Nat) : ℚ :=
  l2sq (data.shift (i * dim)) (C.shift (j * dim)) dim

theorem assign_getD {i : Nat} (inside : i < n) (C : Floats) :
    (assign data n dim k C).getD i (0, 0) = nearestCentroid (data.shift (i * dim)) C k dim := by
  rw [assign, List.getD_eq_getElem?_getD, List.getElem?_map, List.getElem?_range inside]
  rfl

/-- **Every point has the label of a nearest centroid**, the lowest one, and its distance. -/
theorem assign_spec (positive : 0 < k) {i : Nat} (inside : i < n) (C : Floats) :
    labelsOf (assign data n dim k C) i < k ∧
    distsOf (assign data n dim k C) i = dist data dim C i (labelsOf (assign data n dim k C) i) ∧
    (∀ j < k, dist data dim C i (labelsOf (assign data n dim k C) i) ≤ dist data dim C i j) ∧
    ∀ j < labelsOf (assign data n dim k C) i,
      dist data dim C i (labelsOf (assign data n dim k C) i) < dist data dim C i j := by
  unfold labelsOf distsOf
  rw [assign_getD inside]
  exact Clusters.nearest_spec _ positive

theorem sum_coe (f : Nat → ℚ) (n : Nat) : ((List.range n).map fun i => (f i : WithTop ℚ)).sum =
    ((∑ i ∈ Finset.range n, f i : ℚ) : WithTop ℚ) := by
  induction n with
  | zero => rfl
  | succ n ih =>
      rw [List.range_succ, List.map_append, List.sum_append, ih, Finset.sum_range_succ,
        WithTop.coe_add, List.map_singleton, List.sum_singleton]

/-- The inertia is the sum of the distances to the labels. -/
theorem inertia_eq (positive : 0 < k) (C : Floats) :
    inertiaOf (assign data n dim k C) =
      ((∑ i ∈ Finset.range n, dist data dim C i (labelsOf (assign data n dim k C) i) : ℚ) :
        WithTop ℚ) := by
  have each : (assign data n dim k C).map Prod.snd = (List.range n).map fun i =>
      ((dist data dim C i (labelsOf (assign data n dim k C) i) : ℚ) : WithTop ℚ) := by
    rw [assign, List.map_map]
    refine List.map_congr_left fun i mem => ?_
    have inside := List.mem_range.mp mem
    have value := (@assign_spec data n dim k positive i inside C).2.1
    rw [← assign, ← value, distsOf, assign_getD inside]
    rfl
  have total : inertiaOf (assign data n dim k C) = ((assign data n dim k C).map Prod.snd).sum := by
    rw [inertiaOf, List.sum_eq_foldl, List.foldl_map]
  rw [total, each, sum_coe]

/-- **For the old labels** an update lowers the sum of the distances. -/
theorem sum_update_le (positive : 0 < k) (C : Floats) :
    ∑ i ∈ Finset.range n,
        dist data dim (update data n dim k C) i (labelsOf (assign data n dim k C) i) ≤
      ∑ i ∈ Finset.range n, dist data dim C i (labelsOf (assign data n dim k C) i) := by
  have inside : ∀ i ∈ Finset.range n, labelsOf (assign data n dim k C) i ∈ Finset.range k := by
    intro i mem
    exact Finset.mem_range.mpr (assign_spec positive (Finset.mem_range.mp mem) C).1
  rw [← Finset.sum_fiberwise_of_maps_to inside, ← Finset.sum_fiberwise_of_maps_to inside]
  refine Finset.sum_le_sum fun j mem => ?_
  have below := Finset.mem_range.mp mem
  have fixed (C' : Floats) : ∑ i ∈ Finset.range n with labelsOf (assign data n dim k C) i = j,
      dist data dim C' i (labelsOf (assign data n dim k C) i) =
      ∑ d ∈ Finset.range dim, ∑ i ∈ members n (labelsOf (assign data n dim k C)) j,
        (data (i * dim + d) - C'.shift (j * dim) d) ^ 2 := by
    rw [Finset.sum_comm, members]
    refine Finset.sum_congr rfl fun i mem => ?_
    rw [(Finset.mem_filter.mp mem).2, dist, l2sq_eq]
    rfl
  rw [fixed, fixed]
  refine Finset.sum_le_sum fun d mem => ?_
  rcases (members n (labelsOf (assign data n dim k C)) j).eq_empty_or_nonempty with none | nonempty
  · rw [none, Finset.sum_empty, Finset.sum_empty]
  · rw [update_row data n dim k C below nonempty (Finset.mem_range.mp mem)]
    exact Clusters.sum_sq_mean_le _ _ _

/-- **One step.**  The inertia after an update is no greater. -/
theorem inertia_update_le (positive : 0 < k) (C : Floats) :
    inertiaOf (assign data n dim k (update data n dim k C)) ≤ inertiaOf (assign data n dim k C) := by
  rw [inertia_eq positive, inertia_eq positive, WithTop.coe_le_coe]
  refine le_trans (Finset.sum_le_sum fun i mem => ?_) (sum_update_le positive C)
  have inside := Finset.mem_range.mp mem
  exact (assign_spec positive inside _).2.2.1 _ (assign_spec positive inside C).1

theorem lloyd_inertia_le (positive : 0 < k) (iters : Nat) (C : Floats) :
    (lloyd data n dim k (iters + 1) C).inertia ≤ (lloyd data n dim k iters C).inertia := by
  induction iters generalizing C with
  | zero => exact inertia_update_le positive C
  | succ iters ih => exact ih (update data n dim k C)

/-- A result is an assignment to its centroids. -/
theorem lloyd_result (iters : Nat) (C : Floats) :
    let r := lloyd data n dim k iters C
    r.labels = (assign data n dim k r.centroids).map Prod.fst ∧
      r.inertia = inertiaOf (assign data n dim k r.centroids) := by
  induction iters generalizing C with
  | zero => exact ⟨rfl, rfl⟩
  | succ iters ih => exact ih (update data n dim k C)

end Assign

/-- **k-means never gets worse.**  One iteration more reports no greater inertia, the labels
assign every point to the lowest of its nearest centroids, and the inertia is the sum of those
distances. -/
theorem kmeans_descends (rng : Nat → Nat) (data : Floats) {n : Nat} (dim : Nat) {k : Nat}
    (nonempty : 1 ≤ n) (k_pos : 1 ≤ k) (t : Nat) (init : KMeansInit) :
    ∃ r r', kmeans rng data n dim ⟨k, t, init⟩ = .ok r ∧
      kmeans rng data n dim ⟨k, t + 1, init⟩ = .ok r' ∧ r'.inertia ≤ r.inertia ∧
      r.labels.length = n ∧
      (∀ i < n, ∃ l, r.labels[i]? = some l ∧ l < k ∧
        (∀ j < k, dist data dim r.centroids i l ≤ dist data dim r.centroids i j) ∧
        ∀ j < l, dist data dim r.centroids i l < dist data dim r.centroids i j) ∧
      r.inertia = ((∑ i ∈ Finset.range n, dist data dim r.centroids i (r.labels.getD i 0) : ℚ) :
        WithTop ℚ) := by
  have accepted : ¬ (n = 0 ∨ k = 0) := by omega
  unfold kmeans
  rw [if_neg accepted, if_neg accepted]
  refine ⟨_, _, rfl, rfl, lloyd_inertia_le k_pos t _, ?_⟩
  generalize initial rng data n dim ⟨k, t, init⟩ = C
  obtain ⟨labels, inertia⟩ := @lloyd_result data n dim k t C
  generalize (lloyd data n dim k t C) = r at labels inertia ⊢
  have label {i : Nat} (inside : i < n) :
      r.labels[i]? = some (labelsOf (assign data n dim k r.centroids) i) := by
    rw [labels, List.getElem?_map, labelsOf, assign_getD inside, assign, List.getElem?_map,
      List.getElem?_range inside]
    rfl
  refine ⟨?_, ?_, ?_⟩
  · rw [labels, List.length_map, assign, List.length_map, List.length_range]
  · intro i inside
    obtain ⟨below, -, least, first⟩ := @assign_spec data n dim k k_pos i inside r.centroids
    exact ⟨_, label inside, below, least, first⟩
  · rw [inertia, inertia_eq k_pos]
    congr 1
    refine Finset.sum_congr rfl fun i mem => ?_
    rw [List.getD_eq_getElem?_getD, label (Finset.mem_range.mp mem), Option.getD_some]

/-- Three points on a line, four clusters. -/
theorem kmeans_descends_onLine :
    ∃ r r', kmeans (fun i => 3 * i + 1) (fun i => i / 2) 3 1 ⟨4, 1, .randomPoints⟩ = .ok r ∧
      kmeans (fun i => 3 * i + 1) (fun i => i / 2) 3 1 ⟨4, 2, .randomPoints⟩ = .ok r' ∧
      r'.inertia ≤ r.inertia := by
  obtain ⟨r, r', ran, ran', le, -⟩ :=
    @kmeans_descends (fun i => 3 * i + 1) (fun i => i / 2) 3 1 4 (by decide) (by decide) 1 .randomPoints
  exact ⟨r, r', ran, ran', le⟩

end HybridSearch.Engine.Kmeans
