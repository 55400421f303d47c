/-
# Broker.LatencyTracker -- the rolling latency histogram (src/Shards/LatencyTracker.cs)

Time is cut into sub-windows, each with an epoch, and `slots` of them are kept in a
ring: a slot holds the bucket counts of one epoch and is cleared by the first
record of a later one.  Buckets are exact below 64 microseconds and then 32 to an
octave.  `Quantile` adds up the slots that are still in the window and walks over
the sums; a result is cached for a short time, per quantile.

Latencies and times are whole numbers, as in the source; the one fraction is `q`, and
its product with a count is rounded.  The clock does not run backwards past 0.
-/
import HybridSearch.Broker.HedgeBudget
import HybridSearch.Theory.OrderStatistic
import HybridSearch.Theory.Rounding

namespace HybridSearch.Broker

open HybridSearch.Theory

set_option autoImplicit false

namespace LatencyTracker

def linearBuckets : Nat := 64
def subBucketBits : Nat := 5
def maxExponent : Nat := 26
def bucketCount : Nat := linearBuckets + (maxExponent - 6) * (1 <<< subBucketBits)

/-- `BucketOf`; `63 - LeadingZeroCount` is the binary logarithm. -/
def bucketOf (micros : Int) : Nat :=
  let micros := if micros < 0 then 0 else micros.toNat
  if micros < linearBuckets then micros
  else
    let exp := Nat.log2 micros
    if maxExponent ≤ exp then bucketCount - 1
    else
      let sub := (micros >>> (exp - subBucketBits)) &&& ((1 <<< subBucketBits) - 1)
      linearBuckets + (exp - 6) * (1 <<< subBucketBits) + sub

/-- `BucketUpperMicros`: the upper edge of a bucket. -/
def bucketUpperMicros (bucket : Nat) : Nat :=
  if bucket < linearBuckets then bucket
  else
    let rel := bucket - linearBuckets
    let exp := rel / (1 <<< subBucketBits) + 6
    let sub := rel % (1 <<< subBucketBits)
    let width := 2 ^ (exp - subBucketBits)
    2 ^ exp + (sub + 1) * width

structure Slot where
  epoch : Int
  counts : List Nat
  deriving DecidableEq, Repr

def Slot.init : Slot := ⟨-1, List.replicate bucketCount 0⟩

/-- `value` is missing for the `NaN` of an empty window. -/
structure CacheEntry where
  atTicks : Nat
  q : ℚ
  value : Option Nat
  count : Nat
  deriving DecidableEq, Repr

end LatencyTracker

open LatencyTracker

structure LatencyTracker where
  slots : List Slot
  slotTicks : Nat
  cacheTicks : Int
  cache : Option CacheEntry
  deriving DecidableEq, Repr

namespace LatencyTracker

/-- A cast of a `double` to `long`. -/
def truncated (x : ℚ) : Int := toLong (if 0 ≤ x then ⌊x⌋ else ⌈x⌉)

/-- The constructor; the window and the life of a cached result in seconds. -/
def new (window : ℚ) (slots : Int) (cacheFor : ℚ) (frequency : Nat) : Except String LatencyTracker :=
  if slots < 2 then .error "slots"
  else
    .ok {
      slots := List.replicate slots.toNat Slot.init
      slotTicks := (max 1 (truncated (window * frequency / slots))).toNat
      cacheTicks := truncated (cacheFor * frequency)
      cache := none }

variable (t : LatencyTracker)

/-- `RecordMicros`, when the clock shows `clock`. -/
def recordMicros (clock : Nat) (micros : Int) : LatencyTracker :=
  let epoch := clock / t.slotTicks
  let place := epoch % t.slots.length
  let slot := t.slots.getD place Slot.init
  let slot := if slot.epoch ≠ epoch then ⟨epoch, List.replicate bucketCount 0⟩ else slot
  let bucket := bucketOf micros
  { t with
    slots := t.slots.set place
      { slot with counts := slot.counts.set bucket (slot.counts.getD bucket 0 + 1) } }

/-- The slots that `ForEachLiveSlot` visits. -/
def liveSlots (clock : Nat) : List Slot :=
  t.slots.filter fun s => decide (0 ≤ s.epoch) &&
    decide ((clock / t.slotTicks : Nat) - s.epoch < t.slots.length)

/-- `Count`. -/
def count (clock : Nat) : Nat := (t.liveSlots clock).foldl (fun total s => total + s.counts.sum) 0

/-- The counts of the live slots, added up. -/
def merged (clock : Nat) : List Nat :=
  (t.liveSlots clock).foldl (fun sums s => List.zipWith (· + ·) sums s.counts)
    (List.replicate bucketCount 0)

variable (fl : Rounding ℚ)

/-- The value of a quantile, without the cache and the number of samples it needs; `fl` is the
rounding of the product. -/
def valueAt (clock : Nat) (q : ℚ) : Option Nat :=
  let total := t.count clock
  if 0 < total then
    let rank := max 1 ⌈fl (q * total)⌉
    (OrderStatistic.firstReaching rank.toNat 0 0 (t.merged clock)).map bucketUpperMicros
  else none

/-- What `Quantile` computes where nothing is cached. -/
def uncached (clock : Nat) (q : ℚ) (minSamples : Int) : Option Nat :=
  let total := t.count clock
  if minSamples ≤ total ∧ 0 < total then t.valueAt fl clock q else none

/-- `Quantile`; it reads the clock for the cache and once more for the live slots. -/
def quantile (now clock : Nat) (q : ℚ) (minSamples : Int) : Option Nat × LatencyTracker :=
  match t.cache.filter fun c => decide (c.q = q) && decide ((now : Int) - c.atTicks < t.cacheTicks) with
  | some c => (if minSamples ≤ c.count ∧ 0 < c.count then c.value else none, t)
  | none =>
      (t.uncached fl clock q minSamples,
        { t with cache := some ⟨now, q, t.valueAt fl clock q, t.count clock⟩ })

/-- A sequence of records, each with the time of its clock. -/
def recordAll (history : List (Nat × Nat)) : LatencyTracker :=
  history.foldl (fun t r => t.recordMicros r.1 r.2) t

end LatencyTracker

end HybridSearch.Broker
