/-
# Broker.LatencyQuantile -- what the latency histogram says about the samples

The edges of the buckets first: the upper edge of a sample's bucket is at least the
sample and at most 1/32 above it, and the edges rise with the samples.

Then the ring.  `SlotHolds` says of one slot that it counts exactly the samples of its
epoch and that no sample of its place is newer; a record keeps it (`holds_recordMicros`).
The live slots therefore hold every sample of the window once (`count_eq`), and
their sums are the histogram of the window.
-/
import HybridSearch.Broker.LatencyTracker

namespace HybridSearch.Broker.LatencyTracker

open HybridSearch.Theory
open HybridSearch.Theory.OrderStatistic

set_option autoImplicit false

/-! ## Buckets -/

/-- The width of the buckets of a sample's octave. -/
def width (v : Nat) : Nat := 2 ^ (Nat.log2 v - 5)

theorem octave {v : Nat} (big : 64 ≤ v) (small : v < 2 ^ 26) :
    6 ≤ Nat.log2 v ∧ Nat.log2 v < 26 ∧ 2 ^ Nat.log2 v ≤ v ∧ v < 2 ^ (Nat.log2 v + 1) := by
  have nonzero : v ≠ 0 := by omega
  refine ⟨(Nat.le_log2 nonzero).mpr (by omega), (Nat.log2_lt nonzero).mpr small,
    Nat.log2_self_le nonzero, Nat.lt_log2_self⟩

theorem width_spec {v : Nat} (big : 64 ≤ v) (small : v < 2 ^ 26) :
    0 < width v ∧ 32 * width v = 2 ^ Nat.log2 v ∧ 32 ≤ v / width v ∧ v / width v < 64 := by
  obtain ⟨low, -, below, above⟩ := octave big small
  have positive : 0 < width v := Nat.two_pow_pos _
  have whole : 32 * width v = 2 ^ Nat.log2 v := by
    unfold width
    rw [show (32 : Nat) = 2 ^ 5 from rfl, ← pow_add]
    congr 1
    omega
  refine ⟨positive, whole, ?_, ?_⟩
  · rw [Nat.le_div_iff_mul_le positive, whole]
    exact below
  · rw [Nat.div_lt_iff_lt_mul positive]
    rw [pow_succ, ← whole] at above
    omega

theorem bucketOf_linear {v : Nat} (small : v < 64) : bucketOf v = v := by
  have notNegative : ¬ (v : Int) < 0 := by omega
  simp only [bucketOf, notNegative, if_false, Int.toNat_natCast, linearBuckets, if_pos small]

theorem bucketOf_octave {v : Nat} (big : 64 ≤ v) (small : v < 2 ^ 26) :
    bucketOf v = 64 + (Nat.log2 v - 6) * 32 + (v / width v - 32) := by
  obtain ⟨low, high, -, -⟩ := octave big small
  obtain ⟨-, -, atLeast, below⟩ := width_spec big small
  have sub : v >>> (Nat.log2 v - 5) &&& 31 = v / width v - 32 := by
    rw [Nat.shiftRight_eq_div_pow, show (31 : Nat) = 2 ^ 5 - 1 from rfl, Nat.and_two_pow_sub_one_eq_mod]
    change v / width v % 2 ^ 5 = _
    omega
  have notNegative : ¬ (v : Int) < 0 := by omega
  simp only [bucketOf, notNegative, if_false, Int.toNat_natCast, linearBuckets, maxExponent,
    subBucketBits, if_neg (show ¬ v < 64 by omega), if_neg (show ¬ 26 ≤ Nat.log2 v by omega)]
  change 64 + (Nat.log2 v - 6) * 32 + (v >>> (Nat.log2 v - 5) &&& 31) = _
  rw [sub]

theorem upper_bucketOf {v : Nat} (big : 64 ≤ v) (small : v < 2 ^ 26) :
    bucketUpperMicros (bucketOf v) = (v / width v + 1) * width v := by
  obtain ⟨low, -, -, -⟩ := octave big small
  obtain ⟨-, whole, atLeast, below⟩ := width_spec big small
  rw [bucketOf_octave big small]
  generalize sub_eq : v / width v - 32 = sub
  have subSmall : sub < 32 := by omega
  have notLinear : ¬ 64 + (Nat.log2 v - 6) * 32 + sub < linearBuckets := by
    unfold linearBuckets
    omega
  have rel : 64 + (Nat.log2 v - 6) * 32 + sub - linearBuckets = (Nat.log2 v - 6) * 32 + sub := by
    unfold linearBuckets
    omega
  have exp : ((Nat.log2 v - 6) * 32 + sub) / 32 + 6 = Nat.log2 v := by omega
  have rest : ((Nat.log2 v - 6) * 32 + sub) % 32 = sub := by omega
  simp only [bucketUpperMicros, if_neg notLinear, rel]
  change 2 ^ (((Nat.log2 v - 6) * 32 + sub) / 32 + 6) +
    (((Nat.log2 v - 6) * 32 + sub) % 32 + 1) *
      2 ^ (((Nat.log2 v - 6) * 32 + sub) / 32 + 6 - 5) = _
  rw [exp, rest, ← whole]
  change 32 * width v + (sub + 1) * width v = _
  rw [← add_mul]
  congr 1
  omega

theorem upper_linear {v : Nat} (small : v < 64) : bucketUpperMicros (bucketOf v) = v := by
  rw [bucketOf_linear small, bucketUpperMicros, if_pos (show v < linearBuckets from small)]

/-- **The edge of a bucket** is not below the samples in it, and no more than 1/32 above. -/
theorem upper_spec {v : Nat} (small : v < 2 ^ 26) :
    v ≤ bucketUpperMicros (bucketOf v) ∧ 32 * bucketUpperMicros (bucketOf v) ≤ 33 * v := by
  by_cases linear : v < 64
  · rw [upper_linear linear]
    omega
  · have big : 64 ≤ v := by omega
    obtain ⟨-, -, below, -⟩ := octave big small
    obtain ⟨positive, whole, -, -⟩ := width_spec big small
    have parts := Nat.div_add_mod v (width v)
    have rest := Nat.mod_lt v positive
    rw [upper_bucketOf big small, add_mul, one_mul, Nat.mul_comm (v / width v)]
    omega

theorem bucketOf_beyond {v : Nat} (beyond : 2 ^ 26 ≤ v) : bucketOf v = bucketCount - 1 := by
  have notNegative : ¬ (v : Int) < 0 := by omega
  have exp : 26 ≤ Nat.log2 v := (Nat.le_log2 (by omega)).mpr beyond
  simp only [bucketOf, notNegative, if_false, Int.toNat_natCast, linearBuckets, maxExponent,
    if_neg (show ¬ v < 64 by omega), if_pos exp]

theorem bucketOf_lt (v : Nat) : bucketOf v < bucketCount := by
  change bucketOf v < 704
  by_cases linear : v < 64
  · rw [bucketOf_linear linear]
    omega
  · by_cases small : v < 2 ^ 26
    · have big : 64 ≤ v := by omega
      obtain ⟨low, high, -, -⟩ := octave big small
      obtain ⟨-, -, -, below⟩ := width_spec big small
      rw [bucketOf_octave big small]
      omega
    · rw [bucketOf_beyond (by omega)]
      decide

theorem octave_mono {v v' : Nat} (big : 64 ≤ v) (le : v ≤ v') : Nat.log2 v ≤ Nat.log2 v' :=
  (Nat.le_log2 (by omega)).mpr ((Nat.log2_self_le (by omega)).trans le)

/-- The buckets rise with the samples. -/
theorem bucketOf_mono {v v' : Nat} (le : v ≤ v') : bucketOf v ≤ bucketOf v' := by
  by_cases small : v' < 2 ^ 26
  · by_cases linear : v < 64
    · rw [bucketOf_linear linear]
      by_cases linear' : v' < 64
      · rwa [bucketOf_linear linear']
      · rw [bucketOf_octave (by omega) small]
        omega
    · have big : 64 ≤ v := by omega
      obtain ⟨low, -, -, -⟩ := octave big (by omega)
      obtain ⟨-, -, -, below⟩ := width_spec big (by omega)
      rw [bucketOf_octave big (by omega), bucketOf_octave (big.trans le) small]
      rcases Nat.eq_or_lt_of_le (octave_mono big le) with same | less
      · have sameWidth : width v = width v' := by
          unfold width
          rw [same]
        have parts : v / width v' ≤ v' / width v' := Nat.div_le_div_right le
        rw [same, sameWidth]
        omega
      · omega
  · rw [bucketOf_beyond (v := v') (by omega)]
    exact Nat.le_pred_of_lt (bucketOf_lt v)

/-- And so do their edges. -/
theorem upper_mono {v v' : Nat} (le : v ≤ v') (small : v' < 2 ^ 26) :
    bucketUpperMicros (bucketOf v) ≤ bucketUpperMicros (bucketOf v') := by
  have atLeast := (upper_spec small).1
  by_cases linear : v < 64
  · rw [upper_linear linear]
    exact le.trans atLeast
  · have big : 64 ≤ v := by omega
    obtain ⟨-, whole, -, below⟩ := width_spec big (by omega)
    rcases Nat.eq_or_lt_of_le (octave_mono big le) with same | less
    · have sameWidth : width v = width v' := by
        unfold width
        rw [same]
      rw [upper_bucketOf big (by omega), upper_bucketOf (big.trans le) small, sameWidth]
      exact Nat.mul_le_mul_right _ (Nat.succ_le_succ (Nat.div_le_div_right le))
    · -- an edge stays inside its octave
      refine le_trans ?_ atLeast
      obtain ⟨-, -, reached, -⟩ := octave (big.trans le) small
      refine le_trans ?_ reached
      refine le_trans ?_ (Nat.pow_le_pow_right (by omega) less)
      rw [upper_bucketOf big (by omega), pow_succ, ← whole, Nat.mul_comm, Nat.mul_right_comm,
        Nat.mul_comm 32]
      calc width v * (v / width v + 1) ≤ width v * 64 := Nat.mul_le_mul_left _ below
        _ = width v * 32 * 2 := by rw [Nat.mul_assoc]
        _ = _ := by ring

/-! ## The ring -/

section Ring

variable {k n : Nat}

/-- The sub-window of a record, `k` ticks each. -/
def epochOf (k : Nat) (r : Nat × Nat) : Nat := r.1 / k

/-- **What a slot holds** after some records: the counts of its epoch's samples, with no newer
sample at its place. -/
structure SlotHolds (k n i : Nat) (history : List (Nat × Nat)) (s : Slot) : Prop where
  size : s.counts.length = bucketCount
  counts : ∀ b < bucketCount, s.counts[b]? = some (history.countP fun r =>
    decide ((epochOf k r : Int) = s.epoch) && decide (bucketOf r.2 = b))
  newest : ∀ r ∈ history, epochOf k r % n = i → (epochOf k r : Int) ≤ s.epoch
  attained : s.epoch = -1 ∨ ∃ r ∈ history, (epochOf k r : Int) = s.epoch ∧ epochOf k r % n = i

theorem slotHolds_init (i : Nat) : SlotHolds k n i [] Slot.init where
  size := List.length_replicate
  counts b inside := by
    rw [List.countP_nil]
    exact List.getElem?_eq_some_iff.mpr ⟨by rwa [Slot.init, List.length_replicate],
      List.getElem_replicate _⟩
  newest r mem := by cases mem
  attained := Or.inl rfl

/-- The slot into which a record goes, before it counts the record. -/
def claimed (epoch : Nat) (s : Slot) : Slot :=
  if s.epoch ≠ epoch then ⟨epoch, List.replicate bucketCount 0⟩ else s

theorem claimed_epoch (epoch : Nat) (s : Slot) : (claimed epoch s).epoch = epoch := by
  unfold claimed
  split_ifs with other
  · rfl
  · exact not_not.mp other

/-- After the claim the slot counts the earlier samples of the epoch, so none when it was
cleared. -/
theorem claimed_counts {i epoch : Nat} {history : List (Nat × Nat)} {s : Slot}
    (holds : SlotHolds k n i history s) (here : epoch % n = i)
    (older : ∀ r ∈ history, epochOf k r ≤ epoch) :
    (claimed epoch s).counts.length = bucketCount ∧
      ∀ b < bucketCount, (claimed epoch s).counts[b]? = some (history.countP fun r =>
        decide ((epochOf k r : Int) = epoch) && decide (bucketOf r.2 = b)) := by
  unfold claimed
  split_ifs with other
  · refine ⟨List.length_replicate, ?_⟩
    intro b inside
    have none : history.countP (fun r =>
        decide ((epochOf k r : Int) = epoch) && decide (bucketOf r.2 = b)) = 0 := by
      rw [List.countP_eq_zero]
      intro r mem both
      simp only [Bool.and_eq_true, decide_eq_true_eq, Nat.cast_inj] at both
      -- a sample of this epoch makes the slot at least as new, and nothing is newer
      have newest := holds.newest r mem (by rw [both.1, here])
      rcases holds.attained with fresh | ⟨r', mem', is', -⟩
      · omega
      · have := older r' mem'
        omega
    rw [none]
    exact List.getElem?_eq_some_iff.mpr ⟨by rwa [List.length_replicate],
      List.getElem_replicate _⟩
  · have same : s.epoch = epoch := not_not.mp other
    rw [← same]
    exact ⟨holds.size, holds.counts⟩

/-- The slot of a record. -/
theorem slotHolds_hit {i : Nat} {history : List (Nat × Nat)} {s : Slot}
    (holds : SlotHolds k n i history s) {r : Nat × Nat} (here : epochOf k r % n = i)
    (older : ∀ r' ∈ history, epochOf k r' ≤ epochOf k r) :
    SlotHolds k n i (history ++ [r])
      { claimed (epochOf k r) s with
        counts := (claimed (epochOf k r) s).counts.set (bucketOf r.2)
          ((claimed (epochOf k r) s).counts.getD (bucketOf r.2) 0 + 1) } := by
  obtain ⟨size, counts⟩ := claimed_counts holds here older
  constructor
  · rw [List.length_set, size]
  · intro b inside
    simp only [claimed_epoch, List.countP_append, List.countP_singleton, decide_true, Bool.true_and,
      decide_eq_true_eq]
    by_cases same : bucketOf r.2 = b
    · subst same
      rw [List.getElem?_set_self (by rwa [size]), if_pos rfl, List.getD_eq_getElem?_getD,
        counts _ inside, Option.getD_some]
    · rw [List.getElem?_set_ne same, if_neg same, counts b inside, Nat.add_zero]
  · intro r' mem _
    rw [claimed_epoch, Nat.cast_le]
    rcases List.mem_append.mp mem with before | last
    · exact older r' before
    · rw [List.mem_singleton.mp last]
  · exact Or.inr ⟨r, List.mem_append_right _ (List.mem_singleton_self r),
      by rw [claimed_epoch], here⟩

/-- Another slot. -/
theorem slotHolds_miss {i : Nat} {history : List (Nat × Nat)} {s : Slot}
    (holds : SlotHolds k n i history s) {r : Nat × Nat} (elsewhere : epochOf k r % n ≠ i) :
    SlotHolds k n i (history ++ [r]) s := by
  constructor
  · exact holds.size
  · intro b inside
    have otherEpoch : ¬ ((epochOf k r : Int) = s.epoch) := by
      intro same
      rcases holds.attained with fresh | ⟨r', -, is', place⟩
      · omega
      · have : epochOf k r' = epochOf k r := by omega
        exact elsewhere (this ▸ place)
    rw [holds.counts b inside, List.countP_append, List.countP_singleton]
    simp only [otherEpoch, decide_false, Bool.false_and, Bool.false_eq_true, if_false, Nat.add_zero]
  · intro r' mem place
    rcases List.mem_append.mp mem with before | last
    · exact holds.newest r' before place
    · rw [List.mem_singleton.mp last] at place
      exact absurd place elsewhere
  · rcases holds.attained with fresh | ⟨r', mem, is', place⟩
    · exact Or.inl fresh
    · exact Or.inr ⟨r', List.mem_append_left _ mem, is', place⟩

/-- All slots hold what they should. -/
structure Holds (k n : Nat) (history : List (Nat × Nat)) (t : LatencyTracker) : Prop where
  ticks : t.slotTicks = k
  size : t.slots.length = n
  slots : ∀ i s, t.slots[i]? = some s → SlotHolds k n i history s

theorem holds_new {window cacheFor : ℚ} {slots : Int} {frequency : Nat} {t : LatencyTracker}
    (made : new window slots cacheFor frequency = .ok t) :
    Holds t.slotTicks slots.toNat [] t ∧ 2 ≤ slots.toNat := by
  unfold new at made
  split_ifs at made with few
  cases made
  refine ⟨⟨rfl, List.length_replicate, ?_⟩, by omega⟩
  intro i s found
  rw [List.eq_of_mem_replicate (List.mem_of_getElem? found)]
  exact slotHolds_init i

theorem slots_recordMicros (t : LatencyTracker) (r : Nat × Nat) :
    (t.recordMicros r.1 r.2).slots = t.slots.set (epochOf t.slotTicks r % t.slots.length)
      (let slot := claimed (epochOf t.slotTicks r)
        (t.slots.getD (epochOf t.slotTicks r % t.slots.length) Slot.init)
      { slot with counts := slot.counts.set (bucketOf r.2) (slot.counts.getD (bucketOf r.2) 0 + 1) }) :=
  rfl

/-- **One record** keeps all slots right. -/
theorem holds_recordMicros {history : List (Nat × Nat)} {t : LatencyTracker}
    (holds : Holds k n history t) (positive : 0 < n) {r : Nat × Nat}
    (older : ∀ r' ∈ history, r'.1 ≤ r.1) :
    Holds k n (history ++ [r]) (t.recordMicros r.1 r.2) := by
  obtain ⟨rfl, rfl, slots⟩ := holds
  refine ⟨rfl, List.length_set, ?_⟩
  intro i s found
  have inside : epochOf t.slotTicks r % t.slots.length < t.slots.length := Nat.mod_lt _ positive
  by_cases here : epochOf t.slotTicks r % t.slots.length = i
  · subst here
    have old := slots _ _ (List.getElem?_eq_getElem inside)
    have hit := slotHolds_hit old rfl
      (fun r' mem => Nat.div_le_div_right (older r' mem))
    rw [slots_recordMicros, List.getElem?_set_self inside, List.getD_eq_getElem?_getD,
      List.getElem?_eq_getElem inside, Option.getD_some] at found
    rw [← Option.some.inj found]
    exact hit
  · refine slotHolds_miss (slots i s ?_) here
    rwa [slots_recordMicros, List.getElem?_set_ne here] at found

/-- **A history** of records, by its steps. -/
theorem holds_recordAll {t : LatencyTracker} {earlier : List (Nat × Nat)}
    (holds : Holds k n earlier t) (positive : 0 < n) (history : List (Nat × Nat))
    (ordered : (earlier ++ history).Pairwise fun r r' => r.1 ≤ r'.1) :
    Holds k n (earlier ++ history) (t.recordAll history) := by
  induction history generalizing t earlier with
  | nil => rwa [List.append_nil]
  | cons r rest ih =>
      rw [List.append_cons] at ordered ⊢
      have first : Holds k n (earlier ++ [r]) (t.recordMicros r.1 r.2) := by
        refine holds_recordMicros holds positive ?_
        intro r' mem
        have front := (List.pairwise_append.mp ordered).1
        exact (List.pairwise_append.mp front).2.2 r' mem r (List.mem_singleton_self r)
      exact ih first ordered

end Ring

/-! ## The window -/

section Window

variable {k n : Nat}

/-- A record whose sub-window is within `n - 1` of the current one. -/
def isLive (k n clock : Nat) (r : Nat × Nat) : Bool :=
  decide (((clock / k : Nat) : Int) - epochOf k r ≤ n - 1)

/-- The latencies in the window. -/
def window (k n clock : Nat) (history : List (Nat × Nat)) : List Nat :=
  (history.filter (isLive k n clock)).map Prod.snd

variable {history : List (Nat × Nat)} {t : LatencyTracker}

theorem epoch_mod {i : Nat} {s : Slot} (holds : SlotHolds k n i history s) (used : 0 ≤ s.epoch) :
    s.epoch % n = i := by
  rcases holds.attained with fresh | ⟨r, -, is, place⟩
  · omega
  · rw [← is, ← Int.natCast_emod, place]

theorem nodup_liveSlots (holds : Holds k n history t) (clock : Nat) :
    ((t.liveSlots clock).map Slot.epoch).Nodup := by
  rw [List.Nodup, List.pairwise_map]
  have apart : t.slots.Pairwise fun s s' => 0 ≤ s.epoch → 0 ≤ s'.epoch → s.epoch ≠ s'.epoch := by
    rw [List.pairwise_iff_getElem]
    intro i j left right less used used' same
    have here := epoch_mod (holds.slots i _ (List.getElem?_eq_getElem left)) used
    have there := epoch_mod (holds.slots j _ (List.getElem?_eq_getElem right)) used'
    rw [same, there] at here
    omega
  refine List.Pairwise.imp_of_mem ?_ (apart.filter _)
  intro s s' mem mem' differ
  simp only [liveSlots, List.mem_filter, Bool.and_eq_true, decide_eq_true_eq] at mem mem'
  exact differ mem.2.1 mem'.2.1

/-- A live record's epoch is that of a live slot, and no other record's is. -/
theorem mem_liveSlots_iff (holds : Holds k n history t) (positive : 0 < n) {clock : Nat}
    (later : ∀ r ∈ history, r.1 ≤ clock) {r : Nat × Nat} (mem : r ∈ history) :
    (epochOf k r : Int) ∈ (t.liveSlots clock).map Slot.epoch ↔ isLive k n clock r = true := by
  obtain ⟨rfl, rfl, slots⟩ := holds
  simp only [List.mem_map, liveSlots, List.mem_filter, Bool.and_eq_true, decide_eq_true_eq, isLive]
  constructor
  · rintro ⟨s, ⟨-, -, near⟩, same⟩
    rw [same] at near
    omega
  · intro near
    have inside : epochOf t.slotTicks r % t.slots.length < t.slots.length := Nat.mod_lt _ positive
    have holds := slots _ _ (List.getElem?_eq_getElem inside)
    generalize is : t.slots[epochOf t.slotTicks r % t.slots.length] = s at holds
    have newest := holds.newest r mem rfl
    refine ⟨s, ⟨is ▸ List.getElem_mem inside, by omega, by omega⟩, ?_⟩
    -- a newer epoch of the same place would be a whole turn of the ring away
    rcases holds.attained with fresh | ⟨r', mem', is', place⟩
    · omega
    · have bound : epochOf t.slotTicks r' ≤ clock / t.slotTicks := Nat.div_le_div_right (later r' mem')
      rw [← is', Nat.cast_inj]
      rw [← is', Nat.cast_le] at newest
      have apart := (Nat.modEq_iff_dvd' newest).mp place.symm
      rcases Nat.eq_zero_or_pos (epochOf t.slotTicks r' - epochOf t.slotTicks r) with none | turns
      · omega
      · have turn := Nat.le_of_dvd turns apart
        omega

/-- **Every record of the window is in one live slot**, and no other record in any. -/
theorem countP_liveSlots (holds : Holds k n history t) (positive : 0 < n) {clock : Nat}
    (later : ∀ r ∈ history, r.1 ≤ clock) {r : Nat × Nat} (mem : r ∈ history) :
    ((t.liveSlots clock).countP fun s => decide ((epochOf k r : Int) = s.epoch)) =
      if isLive k n clock r = true then 1 else 0 := by
  have count := (nodup_liveSlots holds clock).count (a := (epochOf k r : Int))
  rw [List.count, List.countP_map] at count
  rw [if_congr (mem_liveSlots_iff holds positive later mem) rfl rfl] at count
  rw [← count]
  refine List.countP_congr fun s _ => ?_
  simp only [Function.comp, decide_eq_true_eq, beq_iff_eq]
  exact eq_comm

theorem slotHolds_of_live (holds : Holds k n history t) {clock : Nat} {s : Slot}
    (mem : s ∈ t.liveSlots clock) : ∃ i, SlotHolds k n i history s := by
  obtain ⟨i, found⟩ := List.mem_iff_getElem?.mp (List.mem_filter.mp mem).1
  exact ⟨i, holds.slots i s found⟩

/-- All counts of a slot. -/
theorem sum_counts {i : Nat} {s : Slot} (holds : SlotHolds k n i history s) :
    s.counts.sum = history.countP fun r => decide ((epochOf k r : Int) = s.epoch) && true := by
  have whole := @sum_take_histogram (Nat × Nat) (fun r => bucketOf r.2)
    (history.filter fun r => decide ((epochOf k r : Int) = s.epoch)) s.counts ?_ s.counts.length le_rfl
  · rw [List.take_length] at whole
    rw [whole, List.countP_filter]
    refine List.countP_congr fun r _ => ?_
    have inside := bucketOf_lt r.2
    rw [holds.size]
    simp only [inside, decide_true, Bool.true_and, Bool.and_true]
  · intro b inside
    rw [holds.size] at inside
    rw [holds.counts b inside, List.countP_filter]
    simp only [Bool.and_comm]

/-- **The live slots count the window.** -/
theorem count_eq (holds : Holds k n history t) (positive : 0 < n) {clock : Nat}
    (later : ∀ r ∈ history, r.1 ≤ clock) :
    t.count clock = (window k n clock history).length := by
  have parts := sum_countP_parts
    (fun r mem => countP_liveSlots holds positive later mem) (fun _ => true)
  have each : ((t.liveSlots clock).map fun s => s.counts.sum) =
      (t.liveSlots clock).map fun s => history.countP fun r =>
        decide ((epochOf k r : Int) = s.epoch) && true := by
    refine List.map_congr_left fun s mem => ?_
    obtain ⟨i, slot⟩ := slotHolds_of_live holds mem
    exact sum_counts slot
  rw [count, foldl_add_eq, Nat.zero_add, each, parts, window, List.length_map,
    List.countP_eq_length_filter]
  simp only [Bool.and_true]

/-- **Their sums are its histogram.** -/
theorem merged_eq (holds : Holds k n history t) (positive : 0 < n) {clock : Nat}
    (later : ∀ r ∈ history, r.1 ≤ clock) :
    (t.merged clock).length = bucketCount ∧ ∀ b < bucketCount, (t.merged clock)[b]? =
      some ((window k n clock history).countP fun v : Nat => decide (bucketOf v = b)) := by
  have sizes : ∀ s ∈ t.liveSlots clock, s.counts.length = bucketCount := by
    intro s mem
    obtain ⟨i, slot⟩ := slotHolds_of_live holds mem
    exact slot.size
  obtain ⟨size, columns⟩ := columns_foldl Slot.counts (t.liveSlots clock) sizes
    (List.replicate bucketCount 0) List.length_replicate
  refine ⟨size, ?_⟩
  intro b inside
  have parts := sum_countP_parts
    (fun r mem => countP_liveSlots holds positive later mem) (fun r => decide (bucketOf r.2 = b))
  have each : ((t.liveSlots clock).map fun s => s.counts.getD b 0) =
      (t.liveSlots clock).map fun s => history.countP fun r =>
        decide ((epochOf k r : Int) = s.epoch) && decide (bucketOf r.2 = b) := by
    refine List.map_congr_left fun s mem => ?_
    obtain ⟨i, slot⟩ := slotHolds_of_live holds mem
    rw [List.getD_eq_getElem?_getD, slot.counts b inside, Option.getD_some]
  have start : (List.replicate bucketCount 0).getD b 0 = 0 := by
    rw [List.getD_eq_getElem?_getD, List.getElem?_replicate, if_pos inside, Option.getD_some]
  rw [merged, columns b inside, each, parts, start, Nat.zero_add, window, List.countP_map,
    List.countP_filter]
  congr 1
  refine List.countP_congr fun r _ => ?_
  simp only [Function.comp, Bool.and_comm]

theorem length_window_le {clock : Nat} : (window k n clock history).length ≤ history.length := by
  rw [window, List.length_map]
  exact List.length_filter_le _ _

theorem small_of_window {clock : Nat} (small : ∀ r ∈ history, r.2 < 2 ^ 26) :
    ∀ v ∈ window k n clock history, v < 2 ^ 26 := by
  intro v mem
  obtain ⟨r, live, rfl⟩ := List.mem_map.mp mem
  exact small r (List.mem_filter.mp live).1

/-! ## Quantiles -/

variable {fl : Rounding ℚ}

/-- The rank that the source computes is one of the samples'. -/
theorem rank_spec {q : ℚ} {total : Nat} (above : 0 < q) (le : q ≤ 1) (format : fl q = q)
    (whole : fl.Whole total) (nonempty : 0 < total) :
    1 ≤ ⌈fl (q * total)⌉ ∧ ⌈fl (q * total)⌉ ≤ total := by
  have atLeastOne : (1 : ℚ) ≤ total := by exact_mod_cast nonempty
  constructor
  · refine Int.one_le_ceil_iff.mpr (above.trans_le ?_)
    exact fl.le_of_ge format (le_mul_of_one_le_right above.le atLeastOne)
  · rw [Int.ceil_le]
    push_cast
    exact fl.le_of_le (whole total le_rfl) (mul_le_of_le_one_left (Nat.cast_nonneg _) le)

/-- **The value of a quantile** is the upper edge of its sample's bucket. -/
theorem valueAt_eq (holds : Holds k n history t) (positive : 0 < n) {clock : Nat}
    (later : ∀ r ∈ history, r.1 ≤ clock) (whole : fl.Whole (window k n clock history).length)
    {q : ℚ} (above : 0 < q) (le : q ≤ 1) (format : fl q = q)
    (nonempty : 0 < (window k n clock history).length) :
    ∃ x, kth (window k n clock history)
        ⌈fl (q * (window k n clock history).length)⌉.toNat = some x ∧
      t.valueAt fl clock q = some (bucketUpperMicros (bucketOf x)) := by
  obtain ⟨size, counts⟩ := merged_eq holds positive later
  obtain ⟨low, high⟩ := rank_spec above le format whole nonempty
  obtain ⟨x, found⟩ := @kth_isSome _ _ (window k n clock history)
    ⌈fl (q * (window k n clock history).length)⌉.toNat (by omega) (by omega)
  refine ⟨x, found, ?_⟩
  have reached : firstReaching ⌈fl (q * (window k n clock history).length)⌉.toNat 0 0
      (t.merged clock) = some (bucketOf x) := by
    refine firstReaching_histogram (fun v v' le => bucketOf_mono le) ?_ ?_ (by omega) found
    · rwa [size]
    · intro v _
      rw [size]
      exact bucketOf_lt v
  simp only [valueAt, count_eq holds positive later, if_pos nonempty, max_eq_right low, reached,
    Option.map_some]

/-- The cache has no fresh result. -/
def missed (t : LatencyTracker) (now : Nat) (q : ℚ) : Prop :=
  ∀ c ∈ t.cache, c.q = q → t.cacheTicks ≤ (now : Int) - c.atTicks

theorem quantile_missed {now : Nat} {q : ℚ} (misses : t.missed now q) (clock : Nat)
    (minSamples : Int) :
    (t.quantile fl now clock q minSamples).1 = t.uncached fl clock q minSamples := by
  have none : t.cache.filter (fun c =>
      decide (c.q = q) && decide ((now : Int) - c.atTicks < t.cacheTicks)) = none := by
    rw [Option.filter_eq_none_iff]
    intro c mem both
    simp only [Bool.and_eq_true, decide_eq_true_eq] at both
    have old := misses c mem both.1
    omega
  unfold quantile
  rw [none]

theorem uncached_eq_none_iff (holds : Holds k n history t) (positive : 0 < n) {clock : Nat}
    (later : ∀ r ∈ history, r.1 ≤ clock) (whole : fl.Whole (window k n clock history).length)
    {q : ℚ} (above : 0 < q) (le : q ≤ 1) (format : fl q = q) (minSamples : Int) :
    t.uncached fl clock q minSamples = none ↔
      ((window k n clock history).length : Int) < max 1 minSamples := by
  simp only [uncached, count_eq holds positive later]
  split_ifs with enough
  · obtain ⟨x, -, value⟩ := valueAt_eq holds positive later whole above le format enough.2
    rw [value]
    constructor
    · intro absent
      cases absent
    · intro few
      omega
  · constructor
    · intro _
      omega
    · intro _
      rfl

/-- Where there is a value, it is the edge of the quantile's bucket. -/
theorem uncached_eq_some (holds : Holds k n history t) (positive : 0 < n) {clock : Nat}
    (later : ∀ r ∈ history, r.1 ≤ clock) (whole : fl.Whole (window k n clock history).length)
    {q : ℚ} (above : 0 < q) (le : q ≤ 1) (format : fl q = q) {minSamples : Int} {v : Nat}
    (value : t.uncached fl clock q minSamples = some v) :
    ∃ x, kth (window k n clock history)
        ⌈fl (q * (window k n clock history).length)⌉.toNat = some x ∧
      v = bucketUpperMicros (bucketOf x) := by
  simp only [uncached, count_eq holds positive later] at value
  split_ifs at value with enough
  obtain ⟨x, found, here⟩ := valueAt_eq holds positive later whole above le format enough.2
  rw [here] at value
  exact ⟨x, found, (Option.some.inj value).symm⟩

end Window

/-- A value for the quantile of rank `rank`: not below its sample, no more than 1/32 above, and
exact below 64 microseconds. -/
def Conservative (live : List Nat) (rank : Nat) (v : Nat) : Prop :=
  ∃ x, kth live rank = some x ∧ x ≤ v ∧ (v : ℚ) ≤ x * (1 + 1 / 32) ∧ (x < 64 → v = x)

/-- **Quantiles** after any records in the order of the clock.  A quantile that is not cached is
missing exactly when the window has too few samples; else it is conservative for the rank of the
rounded product, which is the exact rank unless the product came down to a whole number.  The
slots hold the samples of the window and no others, and the value rises with `q`. -/
theorem quantile_conservative {windowSeconds cacheFor : ℚ} {slots : Int} {frequency : Nat}
    {fresh : LatencyTracker} (made : new windowSeconds slots cacheFor frequency = .ok fresh)
    {history : List (Nat × Nat)} (small : ∀ r ∈ history, r.2 < 2 ^ 26)
    (ordered : history.Pairwise fun r r' => r.1 ≤ r'.1) (cache : Option CacheEntry)
    {now clock : Nat} (later : ∀ r ∈ history, r.1 ≤ now) (le : now ≤ clock) (minSamples : Int)
    (fl : Rounding ℚ) (whole : fl.Whole history.length) :
    let t := { fresh.recordAll history with cache := cache }
    let live := window fresh.slotTicks slots.toNat clock history
    t.count clock = live.length ∧
    (∀ b < bucketCount,
      (t.merged clock)[b]? = some (live.countP fun v : Nat => decide (bucketOf v = b))) ∧
    (∀ q : ℚ, 0 < q → q ≤ 1 → fl q = q → t.missed now q →
      ((t.quantile fl now clock q minSamples).1 = none ↔ (live.length : Int) < max 1 minSamples) ∧
      (∀ v, (t.quantile fl now clock q minSamples).1 = some v →
        Conservative live ⌈fl (q * live.length)⌉.toNat v) ∧
      (⌈fl (q * live.length)⌉ = ⌈q * live.length⌉ ∨ fl (q * live.length) = ⌊q * live.length⌋)) ∧
    ∀ q q' : ℚ, 0 < q → q ≤ q' → q' ≤ 1 → fl q = q → fl q' = q' →
      t.missed now q → t.missed now q' → ∀ v v',
        (t.quantile fl now clock q minSamples).1 = some v →
          (t.quantile fl now clock q' minSamples).1 = some v' → v ≤ v' := by
  obtain ⟨start, several⟩ := holds_new made
  have positive : 0 < slots.toNat := by omega
  have after := holds_recordAll start positive history ordered
  rw [List.nil_append] at after
  intro t live
  have holds : Holds fresh.slotTicks slots.toNat history t := ⟨after.ticks, after.size, after.slots⟩
  have before : ∀ r ∈ history, r.1 ≤ clock := fun r mem => (later r mem).trans le
  have smallLive : ∀ v ∈ live, v < 2 ^ 26 := small_of_window small
  have wholeLive : fl.Whole live.length := fun i le => whole i (le.trans length_window_le)
  refine ⟨count_eq holds positive before, (merged_eq holds positive before).2, ?_, ?_⟩
  · intro q above leOne format misses
    rw [quantile_missed misses]
    refine ⟨uncached_eq_none_iff holds positive before wholeLive above leOne format minSamples, ?_, ?_⟩
    · intro v value
      obtain ⟨x, found, rfl⟩ := uncached_eq_some holds positive before wholeLive above leOne format value
      obtain ⟨atLeast, atMost⟩ := upper_spec (smallLive x (mem_of_kth found))
      refine ⟨x, found, atLeast, ?_, fun linear => upper_linear linear⟩
      have cast : (32 : ℚ) * bucketUpperMicros (bucketOf x) ≤ 33 * x := by exact_mod_cast atMost
      linarith
    · exact wholeLive.ceil (mul_nonneg above.le (Nat.cast_nonneg _))
        (mul_le_of_le_one_left (Nat.cast_nonneg _) leOne)
  · intro q q' above leQ leOne format format' misses misses' v v' value value'
    rw [quantile_missed misses] at value
    rw [quantile_missed misses'] at value'
    obtain ⟨x, found, rfl⟩ :=
      uncached_eq_some holds positive before wholeLive above (leQ.trans leOne) format value
    obtain ⟨x', found', rfl⟩ :=
      uncached_eq_some holds positive before wholeLive (above.trans_le leQ) leOne format' value'
    refine upper_mono (kth_mono ?_ found found') (smallLive x' (mem_of_kth found'))
    refine Int.toNat_le_toNat (Int.ceil_le_ceil (fl.monotone ?_))
    exact mul_le_mul_of_nonneg_right leQ (Nat.cast_nonneg _)

/-- Four samples at two times, with the first slot used twice. -/
theorem quantile_conservative_twoSlots : ∃ fresh, new 2 2 0 1 = .ok fresh ∧
    ∀ v, (quantile { fresh.recordAll [(0, 5), (1, 70), (2, 100), (2, 3)] with cache := none }
        Rounding.double 2 2 (1 / 2) 1).1 = some v →
      Conservative (window fresh.slotTicks 2 2 [(0, 5), (1, 70), (2, 100), (2, 3)])
        ⌈Rounding.double ((1 / 2 : ℚ) *
          (window fresh.slotTicks 2 2 [(0, 5), (1, 70), (2, 100), (2, 3)]).length)⌉.toNat v := by
  refine ⟨_, rfl, ?_⟩
  have whole : Rounding.double.Whole 4 := fun i le =>
    Rounding.whole_binary _ i (le.trans (by norm_num))
  have all := @quantile_conservative 2 0 2 1 _ rfl [(0, 5), (1, 70), (2, 100), (2, 3)]
    (by decide) (by decide) none 2 2 (by decide) (by decide) 1 Rounding.double whole
  exact (all.2.2.1 (1 / 2) (by norm_num) (by norm_num) (by decide +kernel)
    (fun c mem => by cases mem)).2.1

/-- The number that `0.9` is. -/
def nineTenths : ℚ := 8106479329266893 / 2 ^ 53

/-- One sample for each of the first twenty microseconds. -/
def twenty : List (Nat × Nat) := (List.range 20).map fun i => (0, i + 1)

theorem window_twenty (k : Nat) : window k 2 0 twenty = (List.range 20).map (· + 1) := by
  rw [window, List.filter_eq_self.mpr, twenty, List.map_map]
  · rfl
  · intro r mem
    obtain ⟨i, -, rfl⟩ := List.mem_map.mp mem
    simp [isLive, epochOf]

/-- Nine tenths of twenty samples are a little more than eighteen, and the product of the
`double`s is eighteen: the value is below the nineteenth sample. -/
theorem quantile_rounds_down : ∃ fresh, new 2 2 0 1 = .ok fresh ∧
    Rounding.double nineTenths = nineTenths ∧
    ¬ ∀ v, (quantile { fresh.recordAll twenty with cache := none } Rounding.double 0 0
        nineTenths 1).1 = some v →
      Conservative (window fresh.slotTicks 2 0 twenty)
        ⌈nineTenths * (window fresh.slotTicks 2 0 twenty).length⌉.toNat v := by
  refine ⟨_, rfl, by decide +kernel, fun all => ?_⟩
  obtain ⟨x, found, atLeast, -⟩ := all 18 (by decide +kernel)
  have rank : ⌈nineTenths * (20 : ℕ)⌉.toNat = 19 := by decide +kernel
  rw [window_twenty, List.length_map, List.length_range, rank, kth_of_sorted (by decide)] at found
  cases found
  exact absurd atLeast (by decide)

end HybridSearch.Broker.LatencyTracker
