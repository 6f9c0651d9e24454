import Mathlib.Data.Rat.Floor
import Mathlib.Tactic.NormNum
import YcsbCloud.Library.Binary64
import YcsbCloud.Library.LogLinear

/-!
# The histogram of `hdr_histogram.c`

The bucket configuration, recording and queries of `hdr_histogram.c`, the library in
which `RocksDBCloud` keeps its latencies. Values that passed the test for a negative
number, positive counts and positions are natural numbers: `Guarantees/HdrBuckets` shows
that no shift and no position leaves its type, and what is shown of recordings is shown of
fewer than `2 ^ 63` values, where no sum of counts overflows. Bucket numbers are integers,
for `-1` occurs. Ranks and logarithms are computed in doubles, as in the source.
-/
namespace YcsbCloud.Source.HdrHistogram
open Library Library.LogLinear

def INT64_MAX : ℕ := 2 ^ 63 - 1
def INT32_MAX : ℕ := 2 ^ 31 - 1
def EINVAL : ℕ := 22

/-- `struct hdr_histogram_bucket_config`, of which each histogram has a copy. -/
structure BucketConfig where
  lowestDiscernibleValue : ℕ
  highestTrackableValue : ℕ
  unitMagnitude : ℕ
  significantFigures : ℕ
  subBucketHalfCountMagnitude : ℕ
  subBucketHalfCount : ℕ
  subBucketMask : ℕ
  subBucketCount : ℕ
  bucketCount : ℕ
  countsLen : ℕ
  deriving DecidableEq, Repr

namespace BucketConfig

variable (c : BucketConfig)

/-- `__builtin_clzll`, of a number other than zero. -/
def countLeadingZeros64 (value : ℕ) : ℤ := 63 - value.log2

def getBucketIndex (value : ℕ) : ℤ :=
  let pow2ceiling := 64 - countLeadingZeros64 (value ||| c.subBucketMask)
  pow2ceiling - c.unitMagnitude - (c.subBucketHalfCountMagnitude + 1)

def getSubBucketIndex (value : ℕ) (bucketIndex : ℤ) (unitMagnitude : ℕ) : ℤ :=
  (value >>> (bucketIndex + unitMagnitude).toNat : ℕ)

def countsIndex (bucketIndex subBucketIndex : ℤ) : ℤ :=
  let bucketBaseIndex := (bucketIndex + 1) * 2 ^ c.subBucketHalfCountMagnitude
  let offsetInBucket := subBucketIndex - c.subBucketHalfCount
  bucketBaseIndex + offsetInBucket

def valueFromIndex (bucketIndex subBucketIndex : ℤ) (unitMagnitude : ℕ) : ℕ :=
  subBucketIndex.toNat <<< (bucketIndex + unitMagnitude).toNat

def countsIndexFor (value : ℕ) : ℤ :=
  let bucketIndex := c.getBucketIndex value
  let subBucketIndex := getSubBucketIndex value bucketIndex c.unitMagnitude
  c.countsIndex bucketIndex subBucketIndex

def hdrValueAtIndex (index : ℕ) : ℕ :=
  let bucketIndex : ℤ := (index >>> c.subBucketHalfCountMagnitude : ℕ) - 1
  let subBucketIndex : ℤ := (index &&& (c.subBucketHalfCount - 1) : ℕ) + c.subBucketHalfCount
  if bucketIndex < 0 then
    valueFromIndex 0 (subBucketIndex - c.subBucketHalfCount) c.unitMagnitude
  else valueFromIndex bucketIndex subBucketIndex c.unitMagnitude

def hdrSizeOfEquivalentValueRange (value : ℕ) : ℕ :=
  let bucketIndex := c.getBucketIndex value
  let subBucketIndex := getSubBucketIndex value bucketIndex c.unitMagnitude
  let adjustedBucket := if subBucketIndex ≥ c.subBucketCount then bucketIndex + 1 else bucketIndex
  1 <<< (c.unitMagnitude + adjustedBucket).toNat

def lowestEquivalentValue (value : ℕ) : ℕ :=
  let bucketIndex := c.getBucketIndex value
  let subBucketIndex := getSubBucketIndex value bucketIndex c.unitMagnitude
  valueFromIndex bucketIndex subBucketIndex c.unitMagnitude

def hdrNextNonEquivalentValue (value : ℕ) : ℕ :=
  c.lowestEquivalentValue value + c.hdrSizeOfEquivalentValueRange value

def highestEquivalentValue (value : ℕ) : ℕ := c.hdrNextNonEquivalentValue value - 1

def hdrMedianEquivalentValue (value : ℕ) : ℕ :=
  c.lowestEquivalentValue value + c.hdrSizeOfEquivalentValueRange value >>> 1

/-- The loop of `buckets_needed_to_cover_value`. The value it doubles passes
`INT64_MAX / 2` before its turns run out. -/
def coverLoop (value : ℕ) : ℕ → ℕ → ℕ → ℕ
  | 0, _, bucketsNeeded => bucketsNeeded
  | turns + 1, smallestUntrackableValue, bucketsNeeded =>
    if smallestUntrackableValue ≤ value then
      if INT64_MAX / 2 < smallestUntrackableValue then bucketsNeeded + 1
      else coverLoop value turns (smallestUntrackableValue <<< 1) (bucketsNeeded + 1)
    else bucketsNeeded

def bucketsNeededToCoverValue (value subBucketCount unitMagnitude : ℕ) : ℕ :=
  coverLoop value 64 (subBucketCount <<< unitMagnitude) 1

end BucketConfig

/-- `log(value) / log(2)`. -/
def log2Quotient (value : ℕ) : ℚ :=
  Binary64.round (Binary64.log (Binary64.round value) / Binary64.log 2)

/-- `hdr_calculate_bucket_config`. -/
def hdrCalculateBucketConfig (lowestDiscernibleValue highestTrackableValue : Int64)
    (significantFigures : Int32) : Except ℕ BucketConfig :=
  if lowestDiscernibleValue.toInt < 1 ∨ significantFigures.toInt < 1 ∨
      5 < significantFigures.toInt ∨
      lowestDiscernibleValue.toInt * 2 > highestTrackableValue.toInt then
    .error EINVAL
  else
    let figures := significantFigures.toInt.toNat
    let largestValueWithSingleUnitResolution := 2 * 10 ^ figures
    let subBucketCountMagnitude := ⌈log2Quotient largestValueWithSingleUnitResolution⌉₊
    let subBucketHalfCountMagnitude :=
      (if subBucketCountMagnitude > 1 then subBucketCountMagnitude else 1) - 1
    if INT32_MAX < log2Quotient lowestDiscernibleValue.toInt.toNat then .error EINVAL
    else
      let unitMagnitude := ⌊log2Quotient lowestDiscernibleValue.toInt.toNat⌋₊
      let subBucketCount := 2 ^ (subBucketHalfCountMagnitude + 1)
      if unitMagnitude + subBucketHalfCountMagnitude > 61 then .error EINVAL
      else
        let bucketCount := BucketConfig.bucketsNeededToCoverValue
          highestTrackableValue.toInt.toNat subBucketCount unitMagnitude
        .ok {
          lowestDiscernibleValue := lowestDiscernibleValue.toInt.toNat
          highestTrackableValue := highestTrackableValue.toInt.toNat
          unitMagnitude := unitMagnitude
          significantFigures := figures
          subBucketHalfCountMagnitude := subBucketHalfCountMagnitude
          subBucketHalfCount := subBucketCount / 2
          subBucketMask := (subBucketCount - 1) <<< unitMagnitude
          subBucketCount := subBucketCount
          bucketCount := bucketCount
          countsLen := (bucketCount + 1) * (subBucketCount / 2) }

/-- The scale whose slots the counts are for. -/
def BucketConfig.scale (c : BucketConfig) : Scale := ⟨c.subBucketHalfCountMagnitude, c.unitMagnitude⟩

/-- What `hdr_calculate_bucket_config` makes sure of. -/
structure BucketConfig.Valid (c : BucketConfig) : Prop where
  halfCount : c.subBucketHalfCount = 2 ^ c.subBucketHalfCountMagnitude
  count : c.subBucketCount = 2 ^ (c.subBucketHalfCountMagnitude + 1)
  mask : c.subBucketMask = (2 ^ (c.subBucketHalfCountMagnitude + 1) - 1) <<< c.unitMagnitude
  shifts : c.unitMagnitude + c.subBucketHalfCountMagnitude ≤ 61
  half_le : c.subBucketHalfCountMagnitude ≤ 17
  figures : 10 ^ c.significantFigures ≤ 2 ^ c.subBucketHalfCountMagnitude
  highest : c.highestTrackableValue < 2 ^ 63
  buckets : c.bucketCount = c.scale.level c.highestTrackableValue + 1
  countsLen : c.countsLen = (c.bucketCount + 1) * 2 ^ c.subBucketHalfCountMagnitude
  unit_le : 2 ^ c.unitMagnitude ≤ 2 * c.lowestDiscernibleValue
  unit_lt : c.lowestDiscernibleValue < 2 ^ (c.unitMagnitude + 1)

/-- From a power of two on, the loop counts the doublings up to the value. -/
theorem coverLoop_eq {value : ℕ} (small : value < 2 ^ 63) (turns k bucketsNeeded : ℕ)
    (positive : 0 < k) (inside : k ≤ 62) (enough : 63 ≤ turns + k) :
    BucketConfig.coverLoop value turns (2 ^ k) bucketsNeeded =
      bucketsNeeded + (value.log2 + 1 - k) := by
  induction turns generalizing k bucketsNeeded with
  | zero => omega
  | succ turns ih =>
    rw [BucketConfig.coverLoop]
    split
    next covered =>
      have nonzero : value ≠ 0 := Nat.ne_of_gt (Nat.lt_of_lt_of_le (Nat.two_pow_pos k) covered)
      have above : k ≤ value.log2 := (Nat.le_log2 nonzero).mpr covered
      have below : value.log2 < 63 := (Nat.log2_lt nonzero).mpr small
      by_cases last : k = 62
      · subst last
        rw [if_pos (by decide)]
        omega
      · have doubled : 2 ^ k <<< 1 = 2 ^ (k + 1) := by
          rw [Nat.shiftLeft_eq, ← Nat.pow_add]
        have more : 2 ^ k ≤ 2 ^ 61 := Nat.pow_le_pow_right Nat.two_pos (by omega)
        rw [if_neg (Nat.not_lt.mpr (Nat.le_trans more (by decide))), doubled,
          ih (k + 1) (bucketsNeeded + 1) (by omega) (by omega) (by omega)]
        omega
    next beyond =>
      rcases Nat.eq_zero_or_pos value with rfl | nonzero
      · rw [Nat.log2_zero]
        omega
      · have := (Nat.log2_lt (Nat.ne_of_gt nonzero)).mpr (Nat.not_le.mp beyond)
        omega

theorem bucketsNeededToCoverValue_eq {value m u : ℕ} (small : value < 2 ^ 63)
    (inside : u + m ≤ 61) :
    BucketConfig.bucketsNeededToCoverValue value (2 ^ (m + 1)) u = value.log2 - (u + m) + 1 := by
  rw [BucketConfig.bucketsNeededToCoverValue, Nat.shiftLeft_eq, ← Nat.pow_add,
    coverLoop_eq small 64 _ 1 (by omega) (by omega) (by omega)]
  omega

theorem round_natCast_pos {value : ℕ} (positive : 0 < value) : 0 < Binary64.round value :=
  lt_of_lt_of_le one_pos (Binary64.le_round Binary64.representable_one (by exact_mod_cast positive))

theorem log2Quotient_mono {v w : ℕ} (positive : 0 < v) (ordered : v ≤ w) :
    log2Quotient v ≤ log2Quotient w := by
  have logs := Binary64.log_mono (round_natCast_pos positive)
    (Binary64.round_mono (by exact_mod_cast ordered : (v : ℚ) ≤ w))
  exact Binary64.round_mono (div_le_div_of_nonneg_right logs (Binary64.log_nonneg (by norm_num)))

/-- For powers of two the quotient is cut to the exponent. -/
theorem floor_log2Quotient_two_pow : ∀ k < 64, ⌊log2Quotient (2 ^ k)⌋₊ = k := by decide +kernel

/-- For other numbers rounding may take it up to the next exponent, but not beyond. -/
theorem floor_log2Quotient {value : ℕ} (positive : 0 < value) (small : value < 2 ^ 63) :
    value.log2 ≤ ⌊log2Quotient value⌋₊ ∧ ⌊log2Quotient value⌋₊ ≤ value.log2 + 1 := by
  have nonzero := Nat.ne_of_gt positive
  have below : value.log2 < 63 := (Nat.log2_lt nonzero).mpr small
  have lower := Nat.floor_mono (log2Quotient_mono (Nat.two_pow_pos _) (Nat.log2_self_le nonzero))
  have upper := Nat.floor_mono (log2Quotient_mono positive
    (Nat.le_of_lt (Nat.lt_log2_self (n := value))))
  rw [floor_log2Quotient_two_pow _ (by omega)] at lower upper
  exact ⟨lower, upper⟩

/-- The power of two that is taken for a number is within a factor of two of it. -/
theorem two_pow_floor_log2Quotient {value : ℕ} (positive : 0 < value) (small : value < 2 ^ 63) :
    2 ^ ⌊log2Quotient value⌋₊ ≤ 2 * value ∧ value < 2 ^ (⌊log2Quotient value⌋₊ + 1) := by
  obtain ⟨least, most⟩ := floor_log2Quotient positive small
  have power := Nat.pow_le_pow_right Nat.two_pos most
  have low := Nat.log2_self_le (Nat.ne_of_gt positive)
  rw [Nat.pow_succ] at power
  exact ⟨by omega, Nat.lt_of_lt_of_le Nat.lt_log2_self
    (Nat.pow_le_pow_right Nat.two_pos (Nat.succ_le_succ least))⟩

/-- The sub-buckets resolve the significant figures. -/
theorem subBucketHalfCountMagnitude_spec :
    ∀ figures < 6, 1 ≤ figures → 1 < ⌈log2Quotient (2 * 10 ^ figures)⌉₊ ∧
      ⌈log2Quotient (2 * 10 ^ figures)⌉₊ ≤ 18 ∧
      10 ^ figures ≤ 2 ^ (⌈log2Quotient (2 * 10 ^ figures)⌉₊ - 1) := by decide +kernel

theorem hdrCalculateBucketConfig_valid {lowest highest : Int64} {figures : Int32} {c : BucketConfig}
    (accepted : hdrCalculateBucketConfig lowest highest figures = .ok c) : c.Valid := by
  unfold hdrCalculateBucketConfig at accepted
  split at accepted
  · cases accepted
  next arguments =>
    obtain ⟨magnitude, few, resolved⟩ :=
      subBucketHalfCountMagnitude_spec figures.toInt.toNat (by omega) (by omega)
    have smallLowest := lowest.toInt_lt
    have positive : 0 < lowest.toInt.toNat := by omega
    obtain ⟨unit_le, unit_lt⟩ := two_pow_floor_log2Quotient positive (by omega)
    dsimp only at accepted
    rw [if_pos magnitude] at accepted
    split at accepted
    · cases accepted
    split at accepted
    · cases accepted
    next inside =>
      have bounded := highest.toInt_lt
      have small : highest.toInt.toNat < 2 ^ 63 := by omega
      have half_le : ⌈log2Quotient (2 * 10 ^ figures.toInt.toNat)⌉₊ - 1 ≤ 17 := by omega
      have halved (n : ℕ) : 2 ^ (n + 1) / 2 = 2 ^ n := by
        rw [Nat.pow_succ, Nat.mul_div_cancel _ Nat.two_pos]
      rw [bucketsNeededToCoverValue_eq small (by omega), halved] at accepted
      cases accepted
      exact {
        halfCount := rfl
        count := rfl
        mask := rfl
        shifts := Nat.le_of_not_lt inside
        half_le := half_le
        figures := resolved
        highest := small
        buckets := rfl
        countsLen := rfl
        unit_le := unit_le
        unit_lt := unit_lt }

/-- A configuration keeps its arguments, none of which is negative. -/
structure BucketConfig.Keeps (c : BucketConfig) (lowest highest : Int64) (figures : Int32) :
    Prop where
  lowest_nonneg : 0 ≤ lowest.toInt
  highest_nonneg : 0 ≤ highest.toInt
  figures_nonneg : 0 ≤ figures.toInt
  lowest : c.lowestDiscernibleValue = lowest.toInt.toNat
  highest : c.highestTrackableValue = highest.toInt.toNat
  figures : c.significantFigures = figures.toInt.toNat

theorem hdrCalculateBucketConfig_keeps {lowest highest : Int64} {figures : Int32} {c : BucketConfig}
    (accepted : hdrCalculateBucketConfig lowest highest figures = .ok c) :
    c.Keeps lowest highest figures := by
  unfold hdrCalculateBucketConfig at accepted
  split at accepted
  · cases accepted
  next arguments =>
    dsimp only at accepted
    generalize (if _ > 1 then _ else 1) - 1 = half at accepted
    split at accepted
    · cases accepted
    · split at accepted
      · cases accepted
      · obtain rfl := Except.ok.inj accepted
        exact ⟨by omega, by omega, by omega, rfl, rfl, rfl⟩

/-- `struct hdr_histogram`, with the configuration's fields as one and the conversion ratio,
which nothing computes with, by its bits. -/
structure Histogram where
  config : BucketConfig
  valid : config.Valid
  minValue : ℕ
  maxValue : ℕ
  normalizingIndexOffset : ℤ
  conversionRatio : BitVec 64
  totalCount : ℕ
  counts : List ℕ
  length_counts : counts.length = config.countsLen

/-- `hdr_init_preallocated`, with the counts that are allocated for the configuration. -/
def hdrInitPreallocated (cfg : BucketConfig) (valid : cfg.Valid) : Histogram where
  config := cfg
  valid := valid
  minValue := INT64_MAX
  maxValue := 0
  normalizingIndexOffset := 0
  conversionRatio := 0x3FF0000000000000
  totalCount := 0
  counts := List.replicate cfg.countsLen 0
  length_counts := List.length_replicate

/-- `hdr_init`, when there is memory. -/
def hdrInit (lowestDiscernibleValue highestTrackableValue : Int64) (significantFigures : Int32) :
    Except ℕ Histogram :=
  match accepted : hdrCalculateBucketConfig lowestDiscernibleValue highestTrackableValue
      significantFigures with
  | .error r => .error r
  | .ok cfg => .ok (hdrInitPreallocated cfg (hdrCalculateBucketConfig_valid accepted))

theorem hdrInit_eq_preallocated {lowest highest : Int64} {figures : Int32} {c : BucketConfig}
    (accepted : hdrCalculateBucketConfig lowest highest figures = .ok c) :
    hdrInit lowest highest figures =
      .ok (hdrInitPreallocated c (hdrCalculateBucketConfig_valid accepted)) := by
  unfold hdrInit
  split
  next refused =>
    rw [accepted] at refused
    cases refused
  next cfg same =>
    rw [accepted] at same
    cases same
    rfl

theorem hdrInit_of_config {lowest highest : Int64} {figures : Int32} {c : BucketConfig}
    (accepted : hdrCalculateBucketConfig lowest highest figures = .ok c) :
    ∃ h, hdrInit lowest highest figures = .ok h ∧ h.config = c :=
  ⟨_, hdrInit_eq_preallocated accepted, rfl⟩

/-- The configuration of the latencies of `RocksDBCloud`. -/
theorem latency_config : hdrCalculateBucketConfig 1 3600000000 3 =
    .ok ⟨1, 3600000000, 0, 3, 10, 1024, 2047, 2048, 22, 23552⟩ := by decide +kernel

namespace Histogram

variable (h : Histogram)

def normalizeIndex (index : ℤ) : ℤ :=
  if h.normalizingIndexOffset = 0 then index
  else
    let normalizedIndex := index - h.normalizingIndexOffset
    let adjustment : ℤ :=
      if normalizedIndex < 0 then h.config.countsLen
      else if normalizedIndex ≥ h.config.countsLen then -h.config.countsLen
      else 0
    normalizedIndex + adjustment

/-- Of an index of the counts: it is called for no other, but by `hdr_count_at_value`. -/
def countsGetDirect (index : ℤ) : ℕ := h.counts.getD index.toNat 0

def countsGetNormalised (index : ℤ) : ℕ := h.countsGetDirect (h.normalizeIndex index)

def countsIncNormalised (index : ℤ) (value : ℕ) : Histogram :=
  { h with
    counts := h.counts.modify (h.normalizeIndex index).toNat (· + value)
    length_counts := (List.length_modify ..).trans h.length_counts
    totalCount := h.totalCount + value }

def updateMinMax (value : ℕ) : Histogram :=
  { h with
    minValue := if value < h.minValue ∧ value ≠ 0 then value else h.minValue
    maxValue := if value > h.maxValue then value else h.maxValue }

def nonZeroMin : ℕ :=
  if INT64_MAX = h.minValue then INT64_MAX else h.config.lowestEquivalentValue h.minValue

/-- `hdr_record_values`. -/
def hdrRecordValues (value : ℤ) (count : ℕ) : Bool × Histogram :=
  if value < 0 then (false, h)
  else
    let countsIndex := h.config.countsIndexFor value.toNat
    if countsIndex < 0 ∨ h.config.countsLen ≤ countsIndex then (false, h)
    else (true, (h.countsIncNormalised countsIndex count).updateMinMax value.toNat)

def hdrRecordValue (value : ℤ) : Bool × Histogram := h.hdrRecordValues value 1

/-- The loop of `hdr_reset_internal_counters`, on the counts from `i` on: the least index
other than zero and the greatest one that count, and the sum of the counts. -/
def resetLoop : List ℕ → ℕ → ℤ → ℤ → ℕ → ℤ × ℤ × ℕ
  | [], _, minNonZeroIndex, maxIndex, observedTotalCount =>
    (minNonZeroIndex, maxIndex, observedTotalCount)
  | countAtIndex :: rest, i, minNonZeroIndex, maxIndex, observedTotalCount =>
    if countAtIndex > 0 then
      resetLoop rest (i + 1) (if minNonZeroIndex = -1 ∧ i ≠ 0 then i else minNonZeroIndex) i
        (observedTotalCount + countAtIndex)
    else resetLoop rest (i + 1) minNonZeroIndex maxIndex observedTotalCount

def hdrResetInternalCounters : Histogram :=
  let (minNonZeroIndex, maxIndex, observedTotalCount) := resetLoop h.counts 0 (-1) (-1) 0
  { h with
    maxValue :=
      if maxIndex = -1 then 0
      else h.config.highestEquivalentValue (h.config.hdrValueAtIndex maxIndex.toNat)
    minValue :=
      if minNonZeroIndex = -1 then INT64_MAX
      else h.config.hdrValueAtIndex minNonZeroIndex.toNat
    totalCount := observedTotalCount }

/-- The loop of `hdr_record_corrected_values`. -/
def correctLoop (count : ℕ) (expectedInterval : ℤ) (positive : 0 < expectedInterval)
    (h : Histogram) (missingValue : ℤ) : Bool × Histogram :=
  if missingValue ≥ expectedInterval then
    match h.hdrRecordValues missingValue count with
    | (false, h) => (false, h)
    | (true, h) => correctLoop count expectedInterval positive h (missingValue - expectedInterval)
  else (true, h)
termination_by missingValue.toNat
decreasing_by omega

def hdrRecordCorrectedValues (value : ℤ) (count : ℕ) (expectedInterval : ℤ) : Bool × Histogram :=
  match h.hdrRecordValues value count with
  | (false, h) => (false, h)
  | (true, h) =>
    if positive : 0 < expectedInterval then
      if value ≤ expectedInterval then (true, h)
      else correctLoop count expectedInterval positive h (value - expectedInterval)
    else (true, h)

/-- `hdr_reset`. -/
def hdrReset : Histogram :=
  { h with
    totalCount := 0
    minValue := INT64_MAX
    maxValue := 0
    counts := List.replicate h.config.countsLen 0
    length_counts := List.length_replicate }

def hdrCountAtIndex (index : ℤ) : ℕ := h.countsGetNormalised index

/-- A value without an index takes the read out of the counts. -/
def hdrCountAtValue (value : ℕ) : Option ℕ :=
  h.counts[(h.normalizeIndex (h.config.countsIndexFor value)).toNat]?

def hdrMax : ℕ := if 0 = h.maxValue then 0 else h.config.highestEquivalentValue h.maxValue

def hdrMin : ℕ := if 0 < h.hdrCountAtIndex 0 then 0 else h.nonZeroMin

/-- The loop of `get_value_from_idx_up_to_count`, on the counts from `idx` on. -/
def upToCountLoop (c : BucketConfig) (countAtPercentile : ℤ) : List ℕ → ℕ → ℕ → ℕ
  | [], _, _ => 0
  | count :: rest, idx, countToIdx =>
    if (countToIdx + count : ℕ) ≥ countAtPercentile then c.hdrValueAtIndex idx
    else upToCountLoop c countAtPercentile rest (idx + 1) (countToIdx + count)

def getValueFromIdxUpToCount (countAtPercentile : ℤ) : ℕ :=
  upToCountLoop h.config (if 0 < countAtPercentile then countAtPercentile else 1) h.counts 0 0

/-- Conversion of a `double` to `int64_t`. -/
def toInt64 (x : ℚ) : ℤ := if 0 ≤ x then ⌊x⌋ else ⌈x⌉

/-- The number of values up to a percentile, as the queries compute it in doubles. -/
def countAtPercentile (percentile : ℚ) (totalCount : ℕ) : ℤ :=
  let requestedPercentile := if percentile < 100 then percentile else 100
  let share := Binary64.round
    (Binary64.round (requestedPercentile / 100) * Binary64.round totalCount)
  toInt64 (Binary64.round (share + 1 / 2))

def hdrValueAtPercentile (percentile : ℚ) : ℕ :=
  let valueFromIdx := h.getValueFromIdxUpToCount (countAtPercentile percentile h.totalCount)
  if percentile = 0 then h.config.lowestEquivalentValue valueFromIdx
  else h.config.highestEquivalentValue valueFromIdx

end Histogram

end YcsbCloud.Source.HdrHistogram
