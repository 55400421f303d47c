/-
# Engine.ProductQuantizer -- product quantization in exact arithmetic (src/vector/pq.cc)

A vector is centred, cut into `M` parts of `dsub` floats, and each part is coded by the
nearest of 256 centroids.  `distanceTable` holds the distances of a query's parts to
all centroids, `adc` adds up the ones a code selects.

Indices into the codebooks are computed in `size_t`, indices into the table in
`uint32_t`: a table of more than 2^24 rows writes over its first rows.  Everything is
consistent for exactly the shapes that stay below (`consistent_iff`).
-/
import HybridSearch.Engine.Kmeans
import HybridSearch.Engine.Machine

namespace HybridSearch.Engine

open HybridSearch.Theory

set_option autoImplicit false

namespace ProductQuantizer

def kCentroids : Nat := 256

end ProductQuantizer

open ProductQuantizer

/-- A quantizer as `train` makes it. -/
structure ProductQuantizer where
  dim : Nat
  M : Nat
  dsub : Nat
  mean : Floats
  codebooks : Floats
  fits : dim < 2 ^ 32 ∧ M < 2 ^ 32
  positive : M ≠ 0
  whole : dim = M * dsub
  narrow : dsub ≤ 1024

namespace ProductQuantizer

/-- `train`; `rng m` are the draws for the subspace `m`. -/
def train (rng : Nat → Nat → Nat) (data : Floats) (n : Nat) (dim M : Fin (2 ^ 32)) (iters : Nat) :
    Except String ProductQuantizer :=
  if bad : M.val = 0 ∨ dim.val % M.val ≠ 0 then .error "PQ: dim must be a multiple of M"
  else if wide : 1024 < dim.val / M.val then .error "PQ: subspace wider than 1024"
  else if n < kCentroids then .error "PQ: need at least 256 training vectors"
  else
    let ds := dim.val / M.val
    let mean : Floats := fun d =>
      (List.range n).foldl (fun mean i => mean + data (i * dim.val + d)) 0 / n
    let codebook (m : Nat) : Except String Floats := do
      let sub : Floats := fun i => data (i / ds * dim.val + m * ds + i % ds) - mean (m * ds + i % ds)
      let r ← Kmeans.kmeans (rng m) sub n ds ⟨kCentroids, iters, .randomPoints⟩
      return r.centroids
    do
      let codebooks ← (List.range M.val).foldlM
        (fun codebooks m => do
          return Kmeans.copyRow codebooks m (kCentroids * ds) (← codebook m))
        (fun _ => 0)
      return {
        dim := dim.val, M := M.val, dsub := ds, mean := mean, codebooks := codebooks
        fits := ⟨dim.isLt, M.isLt⟩
        positive := fun zero => bad (Or.inl zero)
        whole := by
          have multiple : dim.val % M.val = 0 := by
            by_contra other
            exact bad (Or.inr other)
          exact (Nat.mul_div_cancel' (Nat.dvd_of_mod_eq_zero multiple)).symm
        narrow := Nat.le_of_not_lt wide }

variable (pq : ProductQuantizer)

/-- The part `m` of a vector, less the mean: what the buffer `r` holds. -/
def centred (x : Floats) (m : Nat) : Floats := fun d =>
  x (u32 (m * pq.dsub + d)) - pq.mean (u32 (m * pq.dsub + d))

/-- The centroids of the part `m`. -/
def codebook (m : Nat) : Floats := pq.codebooks.shift (m * kCentroids * pq.dsub)

def encode (x : Floats) : Nat → UInt8 := fun m =>
  UInt8.ofNat (Kmeans.nearestCentroid (pq.centred x m) (pq.codebook m) kCentroids pq.dsub).1

/-- `decode` into the buffer `x`. -/
def decode (code : Nat → UInt8) (x : Floats) : Floats :=
  (List.range pq.M).foldl
    (fun x m =>
      let c := pq.codebooks.shift ((m * kCentroids + (code m).toNat) * pq.dsub)
      Kmeans.copyRow x m pq.dsub fun d => c d + pq.mean (u32 (m * pq.dsub + d)))
    x

/-- `distance_table` into the buffer `table`. -/
def distanceTable (q : Floats) (table : Floats) : Floats :=
  (List.range pq.M).foldl
    (fun table m =>
      (List.range kCentroids).foldl
        (fun table c => Function.update table (u32 (u32 (m * kCentroids) + c))
          (l2sq (pq.centred q m) ((pq.codebook m).shift (c * pq.dsub)) pq.dsub))
        table)
    table

/-- The four partial sums of `adc`. -/
structure Sums where
  s0 : ℚ
  s1 : ℚ
  s2 : ℚ
  s3 : ℚ
  deriving DecidableEq, Repr

/-- One lookup of `adc`. -/
def lookup (table : Floats) (code : Nat → UInt8) (m : Nat) : ℚ :=
  table (u32 (u32 (m * kCentroids) + (code m).toNat))

/-- The unrolled loop of `adc`, from `m`. -/
def adcBlocks (table : Floats) (code : Nat → UInt8) : Nat → Nat → Sums → Except Fault (Nat × Sums)
  | 0, _, _ => .error .diverged
  | fuel + 1, m, s =>
      if u32 (m + 4) ≤ pq.M then
        adcBlocks table code fuel (u32 (m + 4))
          { s0 := s.s0 + lookup table code (u32 (m + 0))
            s1 := s.s1 + lookup table code (u32 (m + 1))
            s2 := s.s2 + lookup table code (u32 (m + 2))
            s3 := s.s3 + lookup table code (u32 (m + 3)) }
      else .ok (m, s)

/-- Its remainder. -/
def adcRest (table : Floats) (code : Nat → UInt8) : Nat → Nat → ℚ → Except Fault ℚ
  | 0, _, _ => .error .diverged
  | fuel + 1, m, s0 =>
      if m < pq.M then adcRest table code fuel (u32 (m + 1)) (s0 + lookup table code m)
      else .ok s0

def adc (fuel : Nat) (table : Floats) (code : Nat → UInt8) : Except Fault ℚ := do
  let (m, s) ← pq.adcBlocks table code fuel 0 ⟨0, 0, 0, 0⟩
  let s0 ← pq.adcRest table code fuel m s.s0
  return (s0 + s.s1) + (s.s2 + s.s3)

/-- The distance of a centred part to one of its centroids. -/
def partDistance (x : Floats) (m j : Nat) : ℚ :=
  l2sq (pq.centred x m) ((pq.codebook m).shift (j * pq.dsub)) pq.dsub

/-- **What a quantizer is for.**  The tables give the distances to the decoded codes, and the
code of a vector is the best one, with the lowest of the nearest centroids in every part. -/
structure Consistent : Prop where
  adc_eq : ∀ (q table x : Floats) (code : Nat → UInt8), ∃ fuel,
    pq.adc fuel (pq.distanceTable q table) code = .ok (l2sq q (pq.decode code x) pq.dim)
  best : ∀ (x y y' : Floats) (code : Nat → UInt8),
    l2sq x (pq.decode (pq.encode x) y) pq.dim ≤ l2sq x (pq.decode code y') pq.dim
  lowest : ∀ (x : Floats), ∀ m < pq.M,
    (∀ j < kCentroids, pq.partDistance x m (pq.encode x m).toNat ≤ pq.partDistance x m j) ∧
    ∀ j < (pq.encode x m).toNat,
      pq.partDistance x m (pq.encode x m).toNat < pq.partDistance x m j

/-! ## Codes -/

theorem index_lt {m d : Nat} (inside : m < pq.M) (within : d < pq.dsub) :
    m * pq.dsub + d < pq.dim := by
  rw [pq.whole]
  have := Nat.mul_le_mul_right pq.dsub (Nat.succ_le_of_lt inside)
  rw [Nat.succ_mul] at this
  omega

theorem u32_index {m d : Nat} (inside : m < pq.M) (within : d < pq.dsub) :
    u32 (m * pq.dsub + d) = m * pq.dsub + d :=
  Nat.mod_eq_of_lt ((pq.index_lt inside within).trans pq.fits.1)

theorem decode_at {m d : Nat} (inside : m < pq.M) (within : d < pq.dsub) (code : Nat → UInt8)
    (x : Floats) : pq.decode code x (m * pq.dsub + d) =
      (pq.codebook m).shift ((code m).toNat * pq.dsub) d + pq.mean (m * pq.dsub + d) := by
  have row : pq.decode code x (m * pq.dsub + d) =
      pq.codebooks.shift ((m * kCentroids + (code m).toNat) * pq.dsub) d +
        pq.mean (u32 (m * pq.dsub + d)) :=
    Kmeans.foldl_copyRow_range within inside _ x
  have start : (m * kCentroids + (code m).toNat) * pq.dsub + d =
      m * kCentroids * pq.dsub + ((code m).toNat * pq.dsub + d) := by ring
  rw [row, pq.u32_index inside within]
  simp only [codebook, Floats.shift, start]

/-- **The distance to a decoded code**, part by part. -/
theorem l2sq_decode (q : Floats) (code : Nat → UInt8) (x : Floats) :
    l2sq q (pq.decode code x) pq.dim =
      ∑ m ∈ Finset.range pq.M, pq.partDistance q m (code m).toNat := by
  rw [l2sq_eq, pq.whole, Clusters.sum_range_mul]
  refine Finset.sum_congr rfl fun m mem => ?_
  have inside := Finset.mem_range.mp mem
  rw [partDistance, l2sq_eq]
  refine Finset.sum_congr rfl fun d mem => ?_
  have within := Finset.mem_range.mp mem
  rw [pq.decode_at inside within, centred, pq.u32_index inside within]
  ring

/-- **The code of a vector** names the lowest of the nearest centroids. -/
theorem encode_spec (x : Floats) (m : Nat) :
    (∀ j < kCentroids, pq.partDistance x m (pq.encode x m).toNat ≤ pq.partDistance x m j) ∧
    ∀ j < (pq.encode x m).toNat,
      pq.partDistance x m (pq.encode x m).toNat < pq.partDistance x m j := by
  obtain ⟨below, -, least, first⟩ := @Clusters.nearest_spec ℚ _ (pq.partDistance x m) kCentroids
    (by decide)
  have code : (pq.encode x m).toNat = (Clusters.nearest (pq.partDistance x m) kCentroids).1 := by
    change (UInt8.ofNat (Clusters.nearest (pq.partDistance x m) kCentroids).1).toNat = _
    rw [UInt8.toNat_ofNat']
    exact Nat.mod_eq_of_lt below
  rw [code]
  exact ⟨least, first⟩

/-- Part by part, the code of a vector is the best. -/
theorem encode_best (x y y' : Floats) (code : Nat → UInt8) :
    l2sq x (pq.decode (pq.encode x) y) pq.dim ≤ l2sq x (pq.decode code y') pq.dim := by
  rw [pq.l2sq_decode, pq.l2sq_decode]
  refine Finset.sum_le_sum fun m _ => ?_
  exact (pq.encode_spec x m).1 _ (code m).toNat_lt

/-! ## Tables -/

/-- One row of a table, written entry by entry. -/
def writeRow (v : Nat → ℚ) (m : Nat) (n : Nat) (table : Floats) : Floats :=
  (List.range n).foldl (fun table c => Function.update table (u32 (u32 (m * kCentroids) + c)) (v c))
    table

/-- Row `m` goes to the place of `m` modulo 2^24. -/
theorem u32_place {m c : Nat} (inside : c < kCentroids) :
    u32 (u32 (m * kCentroids) + c) = m % 2 ^ 24 * kCentroids + c := by
  unfold kCentroids u32 at *
  omega

theorem writeRow_apply (v : Nat → ℚ) (m : Nat) {n : Nat} (le : n ≤ kCentroids) (table : Floats)
    (i : Nat) : writeRow v m n table i =
      if i / kCentroids = m % 2 ^ 24 ∧ i % kCentroids < n then v (i % kCentroids) else table i := by
  induction n with
  | zero =>
      rw [if_neg (by omega)]
      rfl
  | succ n ih =>
      have step : writeRow v m (n + 1) table =
          Function.update (writeRow v m n table) (u32 (u32 (m * kCentroids) + n)) (v n) := by
        rw [writeRow, List.range_succ, List.foldl_append]
        rfl
      rw [step, u32_place (by omega)]
      unfold kCentroids at *
      by_cases here : i = m % 2 ^ 24 * 256 + n
      · have offset : i % 256 = n := by omega
        rw [here, Function.update_self, ← here, if_pos ⟨by omega, by omega⟩, offset]
      · rw [Function.update_of_ne here, ih (by omega)]
        by_cases row : i / 256 = m % 2 ^ 24 ∧ i % 256 < n
        · rw [if_pos row, if_pos ⟨row.1, by omega⟩]
        · rw [if_neg row, if_neg]
          rintro ⟨same, below⟩
          exact row ⟨same, by omega⟩

/-- The first `n` rows of a table. -/
def writeRows (v : Nat → Nat → ℚ) (n : Nat) (table : Floats) : Floats :=
  (List.range n).foldl (fun table m => writeRow (v m) m kCentroids table) table

theorem writeRows_succ (v : Nat → Nat → ℚ) (n : Nat) (table : Floats) (i : Nat) :
    writeRows v (n + 1) table i =
      if i / kCentroids = n % 2 ^ 24 then v n (i % kCentroids) else writeRows v n table i := by
  have step : writeRows v (n + 1) table = writeRow (v n) n kCentroids (writeRows v n table) := by
    rw [writeRows, List.range_succ, List.foldl_append, List.foldl_cons, List.foldl_nil, writeRows]
  rw [step, writeRow_apply _ _ le_rfl]
  have within : i % kCentroids < kCentroids := Nat.mod_lt _ (by decide)
  simp only [within, and_true]

/-- **Up to 2^24 rows** have places of their own. -/
theorem writeRows_apply (v : Nat → Nat → ℚ) {n : Nat} (le : n ≤ 2 ^ 24) (table : Floats) (i : Nat) :
    writeRows v n table i =
      if i / kCentroids < n then v (i / kCentroids) (i % kCentroids) else table i := by
  induction n with
  | zero =>
      rw [if_neg (Nat.not_lt_zero _)]
      rfl
  | succ n ih =>
      rw [writeRows_succ, Nat.mod_eq_of_lt (by omega), ih (by omega)]
      by_cases here : i / kCentroids = n
      · rw [if_pos here, if_pos (by omega), here]
      · rw [if_neg here]
        exact if_congr (by omega) rfl rfl

/-- **More rows** write over the first ones. -/
theorem writeRows_beyond {v : Nat → Nat → ℚ} (zero : ∀ m, m ≠ 0 → ∀ c, v m c = 0) {n : Nat}
    (many : 2 ^ 24 < n) (table : Floats) {i : Nat} (small : i < 2 ^ 32) :
    writeRows v n table i = 0 := by
  induction n, many using Nat.le_induction with
  | base =>
      have row : i / kCentroids < 2 ^ 24 := by
        unfold kCentroids
        omega
      rw [writeRows_succ, writeRows_apply v le_rfl, if_pos row, zero _ (by decide)]
      split_ifs with first
      · rfl
      · exact zero _ (by omega) _
  | succ n many ih =>
      rw [writeRows_succ, zero n (by omega), ih]
      exact ite_self _

theorem distanceTable_eq (q table : Floats) :
    pq.distanceTable q table = writeRows (pq.partDistance q) pq.M table := rfl

theorem lookup_distanceTable (small : pq.M ≤ 2 ^ 24) (q table : Floats) (code : Nat → UInt8) {m : Nat}
    (inside : m < pq.M) :
    lookup (pq.distanceTable q table) code m = pq.partDistance q m (code m).toNat := by
  have below : (code m).toNat < kCentroids := (code m).toNat_lt
  rw [lookup, u32_place below, pq.distanceTable_eq, writeRows_apply _ small]
  unfold kCentroids at *
  have row : (m % 2 ^ 24 * 256 + (code m).toNat) / 256 = m := by omega
  have place : (m % 2 ^ 24 * 256 + (code m).toNat) % 256 = (code m).toNat := by omega
  rw [row, place, if_pos inside]

theorem lookup_beyond (many : 2 ^ 24 < pq.M) (q table : Floats) (code : Nat → UInt8)
    (zero : ∀ m, m ≠ 0 → ∀ c, pq.partDistance q m c = 0) (m : Nat) :
    lookup (pq.distanceTable q table) code m = 0 := by
  rw [lookup, pq.distanceTable_eq]
  exact writeRows_beyond zero many table (Nat.mod_lt _ (by decide))

/-! ## Sums of lookups -/

section Adc

variable {table : Floats} {code : Nat → UInt8}

def Sums.total (s : Sums) : ℚ := s.s0 + s.s1 + s.s2 + s.s3

theorem adcBlocks_spec (small : pq.M + 4 < 2 ^ 32) {fuel m : Nat} {s : Sums} (le : m ≤ pq.M)
    (enough : pq.M < fuel + m)
    (total : s.total = ∑ i ∈ Finset.range m, lookup table code i) :
    ∃ m' s', pq.adcBlocks table code fuel m s = .ok (m', s') ∧ m' ≤ pq.M ∧
      s'.total = ∑ i ∈ Finset.range m', lookup table code i := by
  induction fuel generalizing m s with
  | zero => omega
  | succ fuel ih =>
      have fits (j : Nat) (few : j ≤ 4) : u32 (m + j) = m + j := Nat.mod_eq_of_lt (by omega)
      rw [adcBlocks, fits 4 (by omega), fits 0 (by omega), fits 1 (by omega), fits 2 (by omega),
        fits 3 (by omega)]
      split_ifs with more
      · refine ih more (by omega) ?_
        rw [Finset.sum_range_succ, Finset.sum_range_succ, Finset.sum_range_succ,
          Finset.sum_range_succ, ← total]
        simp only [Sums.total, Nat.add_zero]
        ring
      · exact ⟨m, s, rfl, le, total⟩

theorem adcRest_spec (small : pq.M + 4 < 2 ^ 32) {fuel m : Nat} {s0 : ℚ} (le : m ≤ pq.M)
    (enough : pq.M < fuel + m) :
    pq.adcRest table code fuel m s0 = .ok (s0 + (∑ i ∈ Finset.range pq.M, lookup table code i -
      ∑ i ∈ Finset.range m, lookup table code i)) := by
  induction fuel generalizing m s0 with
  | zero => omega
  | succ fuel ih =>
      rw [adcRest]
      split_ifs with more
      · rw [u32, Nat.mod_eq_of_lt (by omega : m + 1 < 2 ^ 32), ih (by omega) (by omega),
          Finset.sum_range_succ _ m]
        congr 1
        ring
      · have last : m = pq.M := by omega
        rw [last, sub_self, add_zero]

/-- **Below the top of the range** `adc` returns the sum of its lookups. -/
theorem adc_eq_sum (small : pq.M + 4 < 2 ^ 32) :
    pq.adc (pq.M + 1) table code = .ok (∑ i ∈ Finset.range pq.M, lookup table code i) := by
  obtain ⟨m, s, blocks, le, total⟩ :=
    @adcBlocks_spec pq table code small (pq.M + 1) 0 ⟨0, 0, 0, 0⟩ (Nat.zero_le _) (by omega)
      (by simp [Sums.total])
  have rest := @adcRest_spec pq table code small (pq.M + 1) m s.s0 le (by omega)
  unfold adc
  rw [blocks]
  change (do
    let s0 ← pq.adcRest table code (pq.M + 1) m s.s0
    return (s0 + s.s1) + (s.s2 + s.s3)) = _
  rw [rest, ← total]
  change Except.ok _ = Except.ok _
  rw [Sums.total]
  congr 1
  ring

/-- **At the top** `m + 4` wraps around and the unrolled loop goes on for ever. -/
theorem adcBlocks_diverges (top : 2 ^ 32 ≤ pq.M + 4) {fuel m : Nat} {s : Sums} (block : m % 4 = 0) :
    pq.adcBlocks table code fuel m s = .error .diverged := by
  induction fuel generalizing m s with
  | zero => rfl
  | succ fuel ih =>
      have block' : u32 (m + 4) % 4 = 0 := by
        unfold u32
        omega
      have more : u32 (m + 4) ≤ pq.M := by
        have below : u32 (m + 4) < 2 ^ 32 := Nat.mod_lt _ (by decide)
        omega
      rw [adcBlocks, if_pos more]
      exact ih block'

/-- Lookups of zeros add up to zero, where the sum returns. -/
theorem adcBlocks_zero (zero : ∀ m, lookup table code m = 0) {fuel m m' : Nat} {s' : Sums}
    (returned : pq.adcBlocks table code fuel m ⟨0, 0, 0, 0⟩ = .ok (m', s')) : s' = ⟨0, 0, 0, 0⟩ := by
  induction fuel generalizing m with
  | zero => cases returned
  | succ fuel ih =>
      rw [adcBlocks] at returned
      simp only [zero, add_zero] at returned
      split_ifs at returned with more
      · exact ih returned
      · cases returned
        rfl

theorem adcRest_zero (zero : ∀ m, lookup table code m = 0) {fuel m : Nat} {s0 s0' : ℚ}
    (returned : pq.adcRest table code fuel m s0 = .ok s0') : s0' = s0 := by
  induction fuel generalizing m with
  | zero => cases returned
  | succ fuel ih =>
      rw [adcRest, zero, add_zero] at returned
      split_ifs at returned with more
      · exact ih returned
      · cases returned
        rfl

theorem adc_zero (zero : ∀ m, lookup table code m = 0) {fuel : Nat} {v : ℚ}
    (returned : pq.adc fuel table code = .ok v) : v = 0 := by
  unfold adc at returned
  obtain ⟨⟨m, s⟩, blocks, returned⟩ := bind_eq_ok.mp returned
  obtain ⟨s0, rest, returned⟩ := bind_eq_ok.mp returned
  have sums := pq.adcBlocks_zero zero blocks
  subst sums
  have first := pq.adcRest_zero zero rest
  subst first
  cases returned
  norm_num

end Adc

/-! ## Shapes -/

/-- **Tables of up to 2^24 rows** are consistent. -/
theorem consistent_of_le (small : pq.M ≤ 2 ^ 24) : pq.Consistent := by
  refine ⟨?_, pq.encode_best, fun x m _ => pq.encode_spec x m⟩
  intro q table x code
  refine ⟨pq.M + 1, ?_⟩
  rw [pq.adc_eq_sum (by omega), pq.l2sq_decode]
  congr 1
  refine Finset.sum_congr rfl fun m mem => ?_
  exact pq.lookup_distanceTable small q table code (Finset.mem_range.mp mem)

/-- Without coordinates all distances are zero. -/
theorem consistent_of_empty (empty : pq.dim = 0) (small : pq.M + 4 < 2 ^ 32) : pq.Consistent := by
  by_cases few : pq.M ≤ 2 ^ 24
  · exact pq.consistent_of_le few
  · refine ⟨?_, pq.encode_best, fun x m _ => pq.encode_spec x m⟩
    intro q table x code
    refine ⟨pq.M + 1, ?_⟩
    have none : pq.dsub = 0 := by
      have whole := pq.whole
      rw [empty] at whole
      exact (Nat.mul_eq_zero.mp whole.symm).resolve_left pq.positive
    have zero : ∀ m, m ≠ 0 → ∀ c, pq.partDistance q m c = 0 := by
      intro m _ c
      rw [partDistance, none]
      rfl
    rw [pq.adc_eq_sum small, empty]
    congr 1
    exact Finset.sum_eq_zero fun m _ => pq.lookup_beyond (by omega) q table code zero m

/-- A quantizer whose first part lies apart from the origin. -/
def apart (dim M : Nat) (fits : dim < 2 ^ 32 ∧ M < 2 ^ 32) (positive : M ≠ 0) (divides : M ∣ dim)
    (narrow : dim / M ≤ 1024) : ProductQuantizer where
  dim := dim
  M := M
  dsub := dim / M
  mean := fun _ => 0
  codebooks := fun i => if i < kCentroids * (dim / M) then 1 else 0
  fits := fits
  positive := positive
  whole := (Nat.mul_div_cancel' divides).symm
  narrow := narrow

section Apart

variable {dim M : Nat} (fits : dim < 2 ^ 32 ∧ M < 2 ^ 32) (positive : M ≠ 0) (divides : M ∣ dim)
  (narrow : dim / M ≤ 1024)

theorem partDistance_apart (m : Nat) {c : Nat} (inside : m = 0 → c < kCentroids) :
    (apart dim M fits positive divides narrow).partDistance (fun _ => 0) m c =
      if m = 0 then ((dim / M : Nat) : ℚ) else 0 := by
  have each : ∀ d ∈ Finset.range (dim / M),
      ((apart dim M fits positive divides narrow).centred (fun _ => 0) m d -
        ((apart dim M fits positive divides narrow).codebook m).shift (c * (dim / M)) d) ^ 2 =
          if m = 0 then (1 : ℚ) else 0 := by
    intro d mem
    have within := Finset.mem_range.mp mem
    change ((0 : ℚ) - 0 -
      if m * kCentroids * (dim / M) + (c * (dim / M) + d) < kCentroids * (dim / M) then 1 else 0) ^ 2 = _
    by_cases first : m = 0
    · have row := Nat.mul_le_mul_right (dim / M) (Nat.succ_le_of_lt (inside first))
      rw [Nat.succ_mul] at row
      rw [first, if_pos (by omega), if_pos rfl]
      norm_num
    · have rows := Nat.mul_le_mul_right (kCentroids * (dim / M)) (Nat.one_le_iff_ne_zero.mpr first)
      rw [Nat.one_mul, ← Nat.mul_assoc] at rows
      rw [if_neg (by omega), if_neg first]
      norm_num
  rw [partDistance, l2sq_eq]
  refine (Finset.sum_congr rfl each).trans ?_
  rw [Finset.sum_const, Finset.card_range, nsmul_eq_mul]
  split_ifs <;> simp

/-- **With more rows** the first part is lost from the sum. -/
theorem not_consistent_apart (dim_ne : dim ≠ 0) (many : 2 ^ 24 < M) :
    ¬ (apart dim M fits positive divides narrow).Consistent := by
  intro consistent
  obtain ⟨fuel, sum⟩ := consistent.adc_eq (fun _ => 0) (fun _ => 0) (fun _ => 0) (fun _ => 0)
  have returned := adc_zero _ (fun m => ?_) sum
  · rw [l2sq_decode, Finset.sum_congr rfl fun m _ => partDistance_apart fits positive divides narrow m
      (fun _ => show (0 : UInt8).toNat < kCentroids by decide)] at returned
    change ∑ m ∈ Finset.range M, (if m = 0 then ((dim / M : Nat) : ℚ) else 0) = 0 at returned
    rw [Finset.sum_ite_eq' (Finset.range M) 0, if_pos (Finset.mem_range.mpr (by omega)),
      Nat.cast_eq_zero] at returned
    have whole := Nat.mul_div_cancel' divides
    rw [returned, Nat.mul_zero] at whole
    exact dim_ne whole.symm
  · refine lookup_beyond _ many _ _ _ (fun m other c => ?_) m
    rw [partDistance_apart fits positive divides narrow m (fun first => absurd first other),
      if_neg other]

/-- The unrolled loop does not return. -/
theorem not_consistent_top (pq : ProductQuantizer) (top : 2 ^ 32 ≤ pq.M + 4) : ¬ pq.Consistent := by
  intro consistent
  obtain ⟨fuel, sum⟩ := consistent.adc_eq (fun _ => 0) (fun _ => 0) (fun _ => 0) (fun _ => 0)
  unfold adc at sum
  rw [pq.adcBlocks_diverges top rfl] at sum
  cases sum

end Apart

/-- **A shape is consistent, whatever the mean and the codebooks, exactly when** its tables have
no more than 2^24 rows (or there is nothing to add up and the unrolled loop ends). -/
theorem consistent_iff {dim M : Nat} (fits : dim < 2 ^ 32 ∧ M < 2 ^ 32) (positive : M ≠ 0)
    (divides : M ∣ dim) (narrow : dim / M ≤ 1024) :
    (∀ pq : ProductQuantizer, pq.dim = dim → pq.M = M → pq.Consistent) ↔
      M ≤ 2 ^ 24 ∨ (dim = 0 ∧ M + 4 < 2 ^ 32) := by
  constructor
  · intro all
    have consistent := all (apart dim M fits positive divides narrow) rfl rfl
    by_contra neither
    by_cases empty : dim = 0
    · exact not_consistent_top _ (by change 2 ^ 32 ≤ M + 4; omega) consistent
    · exact not_consistent_apart fits positive divides narrow empty (by omega) consistent
  · rintro (few | ⟨empty, small⟩) pq rfl rfl
    · exact pq.consistent_of_le few
    · exact pq.consistent_of_empty empty small

/-- 768 floats in 96 parts. -/
theorem consistent_iff_wide :
    (∀ pq : ProductQuantizer, pq.dim = 768 → pq.M = 96 → pq.Consistent) ↔
      96 ≤ 2 ^ 24 ∨ (768 = 0 ∧ 96 + 4 < 2 ^ 32) :=
  consistent_iff (by decide) (by decide) (by decide) (by decide)

/-- 2^24 + 1 parts of one float each: the last row of the table lies over the first. -/
theorem not_consistent_overlapping :
    ∃ pq : ProductQuantizer, pq.dim = 2 ^ 24 + 1 ∧ pq.M = 2 ^ 24 + 1 ∧ ¬ pq.Consistent :=
  ⟨apart (2 ^ 24 + 1) (2 ^ 24 + 1) (by decide) (by decide) (by decide) (by decide), rfl, rfl,
    not_consistent_apart _ _ _ _ (by decide) (by decide)⟩

end ProductQuantizer

end HybridSearch.Engine
