/-
# Engine.DiskAnswers -- building, opening and searching a disk index (disk_build.cc, disk_index.cc)

The codes of a build are those of the quantizer that it trains, one row for every point
(`pqCodes_ok`, `slice_codes`).  Either branch writes an index of lists of other points
(`buildDiskIndex_stored`).  Opened with any cache, a stored index answers with the beam
search over what was stored (`stored_searched`), and so does what was built, for the
vectors, the codes and the lists of the build (`buildDiskIndex_answers`).
-/
import HybridSearch.Engine.DiskCache

namespace HybridSearch.Engine

open HybridSearch.Theory

set_option autoImplicit false

namespace DiskBuild

/-! ## Codes -/

section Codes

theorem bind_ok {ε α β : Type} {a : Except ε α} {next : α → Except ε β} (first : ∃ x, a = .ok x)
    (second : ∀ x, ∃ y, next x = .ok y) : ∃ y, (a >>= next) = .ok y := by
  obtain ⟨x, rfl⟩ := first
  exact second x

theorem foldlM_ok {ε σ α : Type} {step : σ → α → Except ε σ} (each : ∀ s x, ∃ s', step s x = .ok s')
    (xs : List α) (s : σ) : ∃ s', xs.foldlM step s = .ok s' := by
  induction xs generalizing s with
  | nil => exact ⟨s, rfl⟩
  | cons x rest ih =>
      rw [List.foldlM_cons]
      exact bind_ok (each s x) ih

/-- **Training ends** on 256 vectors whose dimension splits into narrow subspaces. -/
theorem train_ok (rng : Nat → Nat → Nat) (data : Floats) {n : Nat} {dim M : Fin (2 ^ 32)} (iters : Nat)
    (whole : M.val ≠ 0 ∧ dim.val % M.val = 0) (narrow : dim.val / M.val ≤ 1024) (points : 256 ≤ n) :
    ∃ pq, ProductQuantizer.train rng data n dim M iters = .ok pq := by
  have enough : ¬ n < ProductQuantizer.kCentroids := Nat.not_lt.mpr points
  have multiple : ¬ (M.val = 0 ∨ dim.val % M.val ≠ 0) := by
    rintro (zero | rest)
    · exact whole.1 zero
    · exact rest whole.2
  rw [ProductQuantizer.train, dif_neg multiple, dif_neg (Nat.not_lt.mpr narrow), if_neg enough]
  dsimp only
  have trained (m : Nat) (sub : Floats) : ∃ r, Kmeans.kmeans (rng m) sub n (dim.val / M.val)
      ⟨ProductQuantizer.kCentroids, iters, .randomPoints⟩ = .ok r := by
    rw [Kmeans.kmeans, if_neg]
    · exact ⟨_, rfl⟩
    · rintro (noPoints | zero)
      · omega
      · exact absurd zero (show ProductQuantizer.kCentroids ≠ 0 by decide)
  refine bind_ok (foldlM_ok (fun codebooks m => ?_) _ _) fun codebooks => ⟨_, rfl⟩
  exact bind_ok (bind_ok (trained m _) fun r => ⟨_, rfl⟩) fun centroids => ⟨_, rfl⟩

variable (P : Points) (n : Nat) (dim : Fin (2 ^ 32)) (p : DiskBuildParams)

/-- What the training of the quantizer asks for. -/
structure Trainable : Prop where
  points : 256 ≤ n
  sample : 256 ≤ p.pqTrainSample
  whole : p.pqM.val ≠ 0 ∧ dim.val % p.pqM.val = 0
  narrow : dim.val / p.pqM.val ≤ 1024

/-- The quantizer of the build, trained on the sampled vectors. -/
def quantizer : Except String ProductQuantizer :=
  let ids := sampleIds n (P.mt (p.vamana.seed ^^^ 0x5051)) p.pqTrainSample
  ProductQuantizer.train (fun m => P.mt (u64 (p.vamana.seed + 7919 * m))) (gather P.floats dim.val ids) ids.length
    dim p.pqM p.pqIters

/-- The code of a point. -/
def codeOf (pq : ProductQuantizer) (i : Nat) : Bytes :=
  (List.range p.pqM.val).map (pq.encode (P.floats.shift (i * dim.val)))

variable {P n dim p}

/-- **The quantizer of the build** gives every point its code. -/
theorem pqCodes_ok (trainable : Trainable n dim p) :
    ∃ pq, quantizer P n dim p = .ok pq ∧
      pqCodes P n dim p = .ok ((List.range n).flatMap (codeOf P dim p pq)) := by
  have points := trainable.points
  have sample := trainable.sample
  have length := length_sampleIds (P.mt (p.vamana.seed ^^^ 0x5051)) n p.pqTrainSample
  obtain ⟨pq, trained⟩ := train_ok (fun m => P.mt (u64 (p.vamana.seed + 7919 * m)))
    (gather P.floats dim.val (sampleIds n (P.mt (p.vamana.seed ^^^ 0x5051)) p.pqTrainSample)) p.pqIters
    trainable.whole trainable.narrow (show 256 ≤ (sampleIds n _ p.pqTrainSample).length by rw [length]; omega)
  refine ⟨pq, trained, ?_⟩
  rw [pqCodes]
  rw [trained]
  rfl

/-- The row of a point among the codes. -/
theorem slice_codes (pq : ProductQuantizer) {i : Nat} (inside : i < n) :
    (((List.range n).flatMap (codeOf P dim p pq)).drop (i * p.pqM.val)).take p.pqM.val = codeOf P dim p pq i := by
  have width (i : Nat) : (codeOf P dim p pq i).length = p.pqM.val := by
    rw [codeOf, List.length_map, List.length_range]
  exact Regions.slice_rows (fun i _ => width i) inside

end Codes

/-! ## What a build stores -/

section Stores

variable {P : Points} {n : Nat} {dim : Fin (2 ^ 32)} {p : DiskBuildParams} {fuel parts : Nat}

/-- The random initialisations of a build end, and the layout has the `R` of a single graph. -/
structure Starts (P : Points) (n : Nat) (dim : Fin (2 ^ 32)) (p : DiskBuildParams) (fuel parts : Nat) : Prop where
  single : parts = 1 → p.vamana.R ≤ max 1 (n - 1) ∧
    ∃ g, VamanaBuild.initGraph (whole P n p) p.vamana n fuel = .ok g
  partitioned : parts ≠ 1 → ∀ ms, partition P n dim p parts (min p.overlap parts) = .ok ms →
    ∀ c ids, ms[c]? = some ids → Initialises P p fuel c ids

/-- The graph of a build: that of all points, or the merged one of the partitions. -/
def Grown (P : Points) (n : Nat) (dim : Fin (2 ^ 32)) (p : DiskBuildParams) (fuel parts medoid : Nat)
    (nbrs : Nat → List Nat) : Prop :=
  if parts = 1 then ∃ built, VamanaBuild.build (whole P n p) p.vamana n fuel = .ok built ∧
    built.index.medoid = medoid ∧ built.index.view.neighbors = nbrs
  else ∃ ms, partition P n dim p parts (min p.overlap parts) = .ok ms ∧
    findMedoid (P.toMean (List.range n)) n = medoid ∧ mergedList P p fuel ms = nbrs

/-- **Either branch of a build writes an index** of lists of other points. -/
theorem buildDiskIndex_stored (ok : Buildable P n dim p) (degree : 1 ≤ p.vamana.R) (fresh : p.prebuiltGraph = none)
    (trainable : Trainable n dim p) (counted : partitionCount P n dim p = .ok parts) (positive : 1 ≤ parts)
    (sampled : parts ≠ 1 → 1 ≤ p.kmeansSample) (starts : Starts P n dim p fuel parts) :
    ∃ w pq medoid nbrs,
      buildDiskIndex P n dim p fuel = .ok ⟨w, (List.range n).flatMap (codeOf P dim p pq)⟩ ∧
      quantizer P n dim p = .ok pq ∧ Grown P n dim p fuel parts medoid nbrs ∧ medoid < n ∧
      (∀ g < n, Local p.vamana.R (List.range n) g (nbrs g)) ∧
      Stored n dim.val p.vamana.R medoid P.bytes nbrs
        (opened n dim p medoid w ((List.range n).flatMap (codeOf P dim p pq))) w := by
  obtain ⟨pq, trained, coded⟩ := @pqCodes_ok P n dim p trainable
  have small : n < 2 ^ 32 := (Nat.le_add_right _ _).trans_lt ok.room
  rw [buildDiskIndex, coded, ok_bind, counted, ok_bind]
  by_cases one : parts = 1
  · obtain ⟨clamped, g, initialised⟩ := starts.single one
    obtain ⟨built, ran, valid⟩ := build_spec ok.points small ok.searches initialised
    obtain ⟨w, written, stored⟩ := single_writes ok fresh ran valid ⟨degree, clamped⟩
      ((List.range n).flatMap (codeOf P dim p pq))
    refine ⟨w, pq, _, _, ?_, trained, ?_, valid.shape.medoid, fun g inside => ⟨?_, ?_, fun v mem => ?_⟩, stored⟩
    · rw [if_pos one, written]
      rfl
    · rw [Grown, if_pos one]
      exact ⟨built, ran, rfl, rfl⟩
    · exact valid.distinct g inside
    · rw [VamanaIndex.length_neighbors]
      exact (valid.shape.degree g inside).trans (by omega)
    · obtain ⟨below, other⟩ := valid.ids g inside v mem
      exact ⟨List.mem_range.mpr below, other⟩
  · obtain ⟨ms, parted⟩ := @partition_ok P n dim p ok.points (sampled one) parts positive (min p.overlap parts)
    have initialised := starts.partitioned one ms parted
    obtain ⟨w, written, stored⟩ := partitioned_writes ok degree parted initialised
      ((List.range n).flatMap (codeOf P dim p pq))
    have lists := mergedList_spec (partition_spec parted).2.1 ok degree initialised
    refine ⟨w, pq, _, _, ?_, trained, ?_, VamanaBuild.findMedoid_lt (P.toMean (List.range n)) ok.points,
      fun g _ => lists g, stored⟩
    · rw [if_neg one, written]
      rfl
    · rw [Grown, if_neg one]
      exact ⟨ms, parted, rfl, rfl⟩

end Stores

/-! ## What searches answer -/

/-- The graph that was built, with the distances of the codes. -/
def builtGraph (medoid : Nat) (nbrs : Nat → List Nat) (code : Nat → Bytes) (q : DiskQuery) : Graph :=
  ⟨medoid, nbrs, fun g => q.adc (code g)⟩

/-- Searches of the index answer with the best of what the beam search over the graph expands: whatever
is cached, however the reads are done, and whatever the searches before them left. -/
def Searched (ix : DiskIndex) (n medoid : Nat) (nbrs : Nat → List Nat) (data code : Nat → Bytes) : Prop :=
  ∀ opts : VectorSearchOptions, 0 < opts.k → ∀ (q : DiskQuery) (dl : Deadline),
    ∃ st dl', Beam.run (builtGraph medoid nbrs code q) (max 1 opts.beamWidth) (n + 1)
        (Beam.start (builtGraph medoid nbrs code q) (max opts.L (min opts.k n))) dl = some (st, dl') ∧
      Beam.Good (builtGraph medoid nbrs code q) (max opts.L (min opts.k n)) st ∧
      ∀ cacheNodes (mode : IoMode), mode.Lawful → ∀ s, DiskIndex.Sound s →
        ∃ cache s', ix.openCache cacheNodes = .ok cache ∧
          ix.search cache mode q opts s dl =
            .ok (⟨BestK.best ranksLe (min opts.k n) (st.expanded.map fun g => ⟨g, q.ip (data g)⟩), dl'.fired⟩,
              s', dl') ∧
          DiskIndex.Sound s'

section Searched

variable {P : Points} {n : Nat} {dim : Fin (2 ^ 32)} {p : DiskBuildParams} {medoid : Nat} {nbrs : Nat → List Nat}

/-- **An index that was stored answers with the beam search** over what was stored. -/
theorem stored_searched (ok : Buildable P n dim p) (inside : medoid < n)
    (fits : ∀ g < n, (nbrs g).length ≤ p.vamana.R ∧ ∀ v ∈ nbrs g, v < n) {w : NodeWriter} {codes : Bytes}
    (stored : Stored n dim.val p.vamana.R medoid P.bytes nbrs (opened n dim p medoid w codes) w) {code : Nat → Bytes}
    (coded : ∀ g < n, (codes.drop (g * p.pqM.val)).take p.pqM.val = code g) :
    Searched (opened n dim p medoid w codes) n medoid nbrs P.bytes code := by
  intro opts k_pos q dl
  have points := ok.points
  obtain ⟨wf, views⟩ := stored.wellFormed ((Nat.le_add_right _ _).trans_lt ok.room) ok.sized inside fits
  generalize same : opened n dim p medoid w codes = ix at *
  have own : (DiskHeader.of n dim.val p.vamana.R medoid).index w.file p.pqM.val codes = ix := same
  rw [own] at wf views
  have shape : ix.n = n ∧ ix.medoid = medoid ∧ ix.pqM = p.pqM.val ∧ ix.codes = codes := by
    rw [← same]
    exact ⟨rfl, rfl, rfl, rfl⟩
  obtain ⟨count, first, width, all⟩ := shape
  have dist : ∀ g < n, (builtGraph medoid nbrs code q).dist g = (ix.graph q).dist g := fun g below => by
    change q.adc (code g) = q.adc ((ix.codes.drop (g * ix.pqM)).take ix.pqM)
    rw [width, all, coded g below]
  have adj : ∀ g < n, (builtGraph medoid nbrs code q).adj g = (ix.graph q).adj g := fun g below =>
    (views g below).2.symm
  have bounded : (builtGraph medoid nbrs code q).Bounded n := ⟨inside, fun g below => (fits g below).2⟩
  have good := @Beam.start_good (builtGraph medoid nbrs code q) (max opts.L (min opts.k n)) (by omega)
  obtain ⟨st, dl', ran, -, searches⟩ := DiskIndex.search_eq_run wf k_pos q dl
  have begins := @Beam.start_congr (builtGraph medoid nbrs code q) (ix.graph q) first.symm (dist medoid inside)
    (max opts.L (min opts.k n))
  have alike := @Beam.run_congr (builtGraph medoid nbrs code q) _ _ (ix.graph q) n (max 1 opts.beamWidth) (n + 1)
    bounded dist adj dl good
  rw [DiskIndex.clampL, DiskIndex.clampK, count, ← begins, ← alike] at ran
  obtain ⟨st', dl₁, ends, after⟩ := @Beam.run_ends _ _ _ n (max 1 opts.beamWidth) bounded (by omega) (n + 1) dl good
    (by omega)
  rw [ran] at ends
  cases ends
  refine ⟨st, dl', ran, after, fun cacheNodes mode lawful s sound => ?_⟩
  obtain ⟨cache, cached, cache_ok⟩ := DiskIndex.openCache_ok wf cacheNodes
  obtain ⟨s', answered, sim⟩ := searches cache cache_ok mode lawful s sound
  have scores : st.expanded.map (ix.scored q) = st.expanded.map fun g => ⟨g, q.ip (P.bytes g)⟩ :=
    List.map_congr_left fun g mem => by
      have below := bounded.of_reaches (after.inv.reached g (after.inv.popped_seen g mem))
      rw [DiskIndex.scored, (views g below).1]
  rw [DiskIndex.clampK, count, scores] at answered
  exact ⟨cache, s', cached, answered, _, sim.visited⟩

/-- **Building, opening and searching.**  Whatever the draws, the distances and the branch, the build
ends, and its index opens and answers with the beam search over the graph that was built: lists of other
points, at most `R`, the distances of the trained quantizer's codes, and the best by the inner product with
the vectors. -/
theorem buildDiskIndex_answers {fuel parts : Nat} (ok : Buildable P n dim p) (degree : 1 ≤ p.vamana.R)
    (fresh : p.prebuiltGraph = none) (trainable : Trainable n dim p)
    (counted : partitionCount P n dim p = .ok parts) (positive : 1 ≤ parts)
    (sampled : parts ≠ 1 → 1 ≤ p.kmeansSample) (starts : Starts P n dim p fuel parts) :
    ∃ built pq medoid nbrs ix, buildDiskIndex P n dim p fuel = .ok built ∧
      (∀ path, DiskIndex.open_ path built.disk.file p.pqM.val built.codes = .ok ix) ∧
      quantizer P n dim p = .ok pq ∧ Grown P n dim p fuel parts medoid nbrs ∧ medoid < n ∧
      (∀ g < n, Local p.vamana.R (List.range n) g (nbrs g)) ∧
      Searched ix n medoid nbrs P.bytes (codeOf P dim p pq) := by
  obtain ⟨w, pq, medoid, nbrs, ran, trained, grown, inside, lists, stored⟩ :=
    buildDiskIndex_stored ok degree fresh trainable counted positive sampled starts
  refine ⟨_, pq, medoid, nbrs, _, ran, stored.opens, trained, grown, inside, lists, ?_⟩
  exact stored_searched ok inside
    (fun g below => ⟨(lists g below).short, fun v mem => List.mem_range.mp ((lists g below).points v mem).1⟩) stored
    fun g below => slice_codes pq below

/-- One graph of 256 points, each a neighbour of all others. -/
def fullParams : DiskBuildParams :=
  { threeParams with vamana := ⟨255, 2, 1, true, 10, 1, 1, 42⟩, pqTrainSample := 256, partitions := 1 }

theorem buildDiskIndex_answers_full : ∃ built pq medoid nbrs ix,
    buildDiskIndex threePoints 256 1 fullParams 0 = .ok built ∧
    DiskIndex.open_ "disk.index" built.disk.file 1 built.codes = .ok ix ∧
    quantizer threePoints 256 1 fullParams = .ok pq ∧ Grown threePoints 256 1 fullParams 0 1 medoid nbrs ∧
    Searched ix 256 medoid nbrs threePoints.bytes (codeOf threePoints 1 fullParams pq) := by
  have ok : Buildable threePoints 256 1 fullParams := by
    refine ⟨by decide, by decide, by decide, fun i _ => rfl, by decide⟩
  have counted : partitionCount threePoints 256 1 fullParams = .ok 1 := by
    simp [partitionCount, fullParams, threeParams]
  have initialised := @VamanaBuild.initGraph_few (whole threePoints 256 fullParams) fullParams.vamana 256
    (by decide) (by decide) 0
  obtain ⟨built, pq, medoid, nbrs, ix, ran, opens, trained, grown, -, -, searched⟩ :=
    @buildDiskIndex_answers threePoints 256 1 fullParams 0 1 ok (by decide) rfl
      ⟨by decide, by decide, by decide, by decide⟩ counted (Nat.le_refl 1) (fun other => absurd rfl other)
      ⟨fun _ => ⟨by decide, initialised⟩, fun other => absurd rfl other⟩
  exact ⟨built, pq, medoid, nbrs, ix, ran, opens "disk.index", trained, grown, searched⟩

end Searched

end DiskBuild

end HybridSearch.Engine
