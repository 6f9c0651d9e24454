import YcsbCloud.Source.HdrHistogram

/-!
# The buckets of a histogram are a log-linear scale

`counts_index_for` numbers the values as a log-linear scale does, and the functions on
equivalent values give the lowest value, the highest value and the width of a slot. So
each index has one class of equivalent values, in the order of the values, and a class
beyond the first bucket is as narrow as the significant figures ask.
-/
namespace YcsbCloud.Guarantees.HdrBuckets
open Library.LogLinear Source.HdrHistogram

/-- A disjunction with `m + 1` ones above `u` zeros has the greater of the leading bits. -/
theorem log2_or_ones (v m u : ℕ) :
    (v ||| (2 ^ (m + 1) - 1) <<< u).log2 = max v.log2 (u + m) := by
  have ones : (2 ^ (m + 1) - 1) <<< u < 2 ^ (u + m + 1) := by
    rw [Nat.shiftLeft_eq, show u + m + 1 = m + 1 + u by omega, Nat.pow_add 2 (m + 1)]
    exact Nat.mul_lt_mul_of_pos_right (Nat.sub_lt (Nat.two_pow_pos _) Nat.one_pos)
      (Nat.two_pow_pos _)
  have leading : 2 ^ (u + m) ≤ (2 ^ (m + 1) - 1) <<< u := by
    rw [Nat.shiftLeft_eq, Nat.add_comm, Nat.pow_add]
    apply Nat.mul_le_mul_right
    have := Nat.two_pow_pos m
    rw [Nat.pow_succ]
    omega
  have nonzero : v ||| (2 ^ (m + 1) - 1) <<< u ≠ 0 := by
    have := Nat.two_pow_pos (u + m)
    have : (2 ^ (m + 1) - 1) <<< u ≤ v ||| (2 ^ (m + 1) - 1) <<< u := Nat.right_le_or
    omega
  rw [Nat.log2_eq_iff nonzero]
  constructor
  · rcases Nat.le_total v.log2 (u + m) with less | more
    · rw [Nat.max_eq_right less]
      exact Nat.le_trans leading Nat.right_le_or
    · rw [Nat.max_eq_left more]
      rcases Nat.eq_zero_or_pos v with rfl | positive
      · rw [Nat.log2_zero] at more ⊢
        obtain ⟨rfl, rfl⟩ : u = 0 ∧ m = 0 := by omega
        decide
      · exact Nat.le_trans (Nat.log2_self_le (Nat.ne_of_gt positive)) Nat.left_le_or
  · apply Nat.or_lt_two_pow
    · exact Nat.lt_of_lt_of_le Nat.lt_log2_self
        (Nat.pow_le_pow_right Nat.two_pos (Nat.succ_le_succ (Nat.le_max_left _ _)))
    · exact Nat.lt_of_lt_of_le ones
        (Nat.pow_le_pow_right Nat.two_pos (Nat.succ_le_succ (Nat.le_max_right _ _)))

variable {c : BucketConfig}

theorem getBucketIndex_eq (valid : c.Valid) (value : ℕ) :
    c.getBucketIndex value = c.scale.level value := by
  rw [BucketConfig.getBucketIndex, BucketConfig.countLeadingZeros64, valid.mask, log2_or_ones]
  unfold Scale.level BucketConfig.scale
  dsimp only
  omega

theorem getSubBucketIndex_eq (value : ℕ) :
    BucketConfig.getSubBucketIndex value (c.scale.level value) c.unitMagnitude =
      c.scale.slot value := by
  rw [BucketConfig.getSubBucketIndex, ← Nat.cast_add, Int.toNat_natCast, Nat.shiftRight_eq_div_pow]
  rfl

theorem countsIndexFor_eq (valid : c.Valid) (value : ℕ) :
    c.countsIndexFor value = c.scale.position value := by
  rw [BucketConfig.countsIndexFor, getBucketIndex_eq valid, getSubBucketIndex_eq,
    BucketConfig.countsIndex, valid.halfCount, Scale.position]
  push_cast
  rw [show c.scale.half = c.subBucketHalfCountMagnitude from rfl]
  ring

theorem hdrValueAtIndex_eq (valid : c.Valid) (index : ℕ) :
    c.hdrValueAtIndex index = c.scale.lowest index := by
  have parts := Nat.div_add_mod index (2 ^ c.subBucketHalfCountMagnitude)
  rw [BucketConfig.hdrValueAtIndex, valid.halfCount, Nat.and_two_pow_sub_one_eq_mod,
    Nat.shiftRight_eq_div_pow]
  unfold BucketConfig.valueFromIndex Scale.lowest Scale.width Scale.slotAt Scale.levelAt
  rw [show c.scale.half = c.subBucketHalfCountMagnitude from rfl,
    show c.scale.unit = c.unitMagnitude from rfl]
  generalize index / 2 ^ c.subBucketHalfCountMagnitude = bucket at parts ⊢
  generalize index % 2 ^ c.subBucketHalfCountMagnitude = offset at parts ⊢
  split
  next first =>
    obtain rfl : bucket = 0 := by omega
    rw [Nat.shiftLeft_eq, Nat.zero_sub, Nat.zero_mul, Nat.sub_zero, ← parts, Nat.mul_zero,
      Nat.zero_add, Nat.zero_add]
    congr 1
    · omega
    · rw [Int.zero_add, Int.toNat_natCast]
  next later =>
    obtain ⟨above, rfl⟩ : ∃ above, bucket = above + 1 := ⟨bucket - 1, by omega⟩
    rw [Nat.shiftLeft_eq, Nat.add_sub_cancel, ← parts, Nat.mul_add, Nat.mul_one, Nat.mul_comm _ above]
    congr 1
    · omega
    · congr 1
      omega

theorem lowestEquivalentValue_eq (valid : c.Valid) (value : ℕ) :
    c.lowestEquivalentValue value = c.scale.lowest (c.scale.position value) := by
  rw [BucketConfig.lowestEquivalentValue, getBucketIndex_eq valid, getSubBucketIndex_eq,
    BucketConfig.valueFromIndex, ← Nat.cast_add, Int.toNat_natCast,
    Int.toNat_natCast, Nat.shiftLeft_eq, Scale.lowest_position]
  rfl

/-- The sub-bucket of a value is always within its bucket. -/
theorem hdrSizeOfEquivalentValueRange_eq (valid : c.Valid) (value : ℕ) :
    c.hdrSizeOfEquivalentValueRange value = c.scale.width (c.scale.position value) := by
  have inside : ¬ ((c.scale.slot value : ℤ) ≥ (c.subBucketCount : ℕ)) := by
    have := c.scale.slot_lt value
    rw [show c.scale.half = c.subBucketHalfCountMagnitude from rfl, ← valid.count] at this
    omega
  rw [BucketConfig.hdrSizeOfEquivalentValueRange, getBucketIndex_eq valid, getSubBucketIndex_eq,
    if_neg inside, ← Nat.cast_add, Int.toNat_natCast, Nat.shiftLeft_eq,
    Nat.one_mul, Scale.width_position, Nat.add_comm]
  rfl

theorem hdrNextNonEquivalentValue_eq (valid : c.Valid) (value : ℕ) :
    c.hdrNextNonEquivalentValue value = c.scale.lowest (c.scale.position value + 1) := by
  rw [BucketConfig.hdrNextNonEquivalentValue, lowestEquivalentValue_eq valid,
    hdrSizeOfEquivalentValueRange_eq valid, Scale.lowest_succ]

theorem highestEquivalentValue_eq (valid : c.Valid) (value : ℕ) :
    c.highestEquivalentValue value + 1 = c.scale.lowest (c.scale.position value + 1) := by
  have positive := Nat.lt_of_le_of_lt (Nat.zero_le _) (c.scale.lt_lowest_succ_position value)
  rw [BucketConfig.highestEquivalentValue, hdrNextNonEquivalentValue_eq valid,
    Nat.sub_add_cancel positive]

theorem lowestEquivalentValue_le (valid : c.Valid) (value : ℕ) :
    c.lowestEquivalentValue value ≤ value := by
  rw [lowestEquivalentValue_eq valid]
  exact c.scale.lowest_position_le value

theorem le_highestEquivalentValue (valid : c.Valid) (value : ℕ) :
    value ≤ c.highestEquivalentValue value := by
  have := highestEquivalentValue_eq valid value
  have := c.scale.lt_lowest_succ_position value
  omega

/-- The values that have an index within the counts end at a power of two. -/
def trackedBelow (c : BucketConfig) : ℕ :=
  2 ^ (c.subBucketHalfCountMagnitude + c.bucketCount + c.unitMagnitude)

theorem position_lt_countsLen_iff (valid : c.Valid) (value : ℕ) :
    c.scale.position value < c.countsLen ↔ value < trackedBelow c := by
  rw [valid.countsLen, Scale.position_lt_iff,
    show c.subBucketHalfCountMagnitude = c.scale.half from rfl, Scale.lowest_bucket]
  rfl

theorem countsIndexFor_lt_iff (valid : c.Valid) (value : ℕ) :
    c.countsIndexFor value < c.countsLen ↔ value < trackedBelow c := by
  rw [countsIndexFor_eq valid, ← position_lt_countsLen_iff valid]
  exact Int.ofNat_lt

theorem highestTrackableValue_lt (valid : c.Valid) : c.highestTrackableValue < trackedBelow c := by
  have below : c.highestTrackableValue < 2 ^ (c.highestTrackableValue.log2 + 1) := Nat.lt_log2_self
  refine Nat.lt_of_lt_of_le below (Nat.pow_le_pow_right Nat.two_pos ?_)
  rw [valid.buckets]
  unfold Scale.level BucketConfig.scale
  dsimp only
  omega

theorem trackedBelow_le (valid : c.Valid) : trackedBelow c ≤ 2 ^ 63 := by
  refine Nat.pow_le_pow_right Nat.two_pos ?_
  have shifts := valid.shifts
  have small := valid.highest
  rw [valid.buckets]
  unfold Scale.level BucketConfig.scale
  dsimp only
  rcases Nat.eq_zero_or_pos c.highestTrackableValue with zero | positive
  · rw [zero, Nat.log2_zero]
    omega
  · have := (Nat.log2_lt (Nat.ne_of_gt positive)).mpr small
    omega

/-- The indices of the counts are the classes of equivalent values, in the order of the
values: an index is that of the value `hdr_value_at_index` gives, values of one index are
those between the lowest and the highest equivalent value of either, and each value up to
`highest_trackable_value` has an index. -/
theorem classes (h : Histogram) :
    (∀ i, h.config.countsIndexFor (h.config.hdrValueAtIndex i) = i) ∧
    (∀ v w, h.config.countsIndexFor v = h.config.countsIndexFor w ↔
      h.config.lowestEquivalentValue v ≤ w ∧ w ≤ h.config.highestEquivalentValue v) ∧
    (∀ v w, v ≤ w → h.config.countsIndexFor v ≤ h.config.countsIndexFor w) ∧
    ∀ v, 0 ≤ h.config.countsIndexFor v ∧
      (v ≤ h.config.highestTrackableValue → h.config.countsIndexFor v < h.config.countsLen) := by
  have valid := h.valid
  refine ⟨?_, ?_, ?_, ?_⟩
  · intro i
    rw [hdrValueAtIndex_eq valid, countsIndexFor_eq valid, Scale.position_lowest]
  · intro v w
    have upper := highestEquivalentValue_eq valid v
    have same := h.config.scale.position_eq_iff w (h.config.scale.position v)
    rw [countsIndexFor_eq valid, countsIndexFor_eq valid, lowestEquivalentValue_eq valid,
      Int.natCast_inj, eq_comm, same]
    omega
  · intro v w ordered
    rw [countsIndexFor_eq valid, countsIndexFor_eq valid]
    exact Int.ofNat_le.mpr (h.config.scale.position_mono ordered)
  · intro v
    refine ⟨?_, ?_⟩
    · rw [countsIndexFor_eq valid]
      exact Int.natCast_nonneg _
    · intro trackable
      rw [countsIndexFor_lt_iff valid]
      exact Nat.lt_of_le_of_lt trackable (highestTrackableValue_lt valid)

theorem class_width (valid : c.Valid) (value : ℕ) :
    c.highestEquivalentValue value + 1 =
      c.lowestEquivalentValue value + c.scale.width (c.scale.position value) := by
  rw [highestEquivalentValue_eq valid, Scale.lowest_succ, lowestEquivalentValue_eq valid]

/-- A class is no wider than the unit, or than one part in ten to the significant figures
of its lowest value. -/
theorem width_resolved (valid : c.Valid) (value : ℕ) :
    c.scale.width (c.scale.position value) ≤ 2 ^ c.unitMagnitude ∨
      c.scale.width (c.scale.position value) * 10 ^ c.significantFigures ≤
        c.lowestEquivalentValue value := by
  have narrow := c.scale.width_mul_le (c.scale.position value)
  rw [← lowestEquivalentValue_eq valid] at narrow
  rcases Nat.le_total (c.lowestEquivalentValue value) (2 ^ (c.scale.unit + c.scale.half)) with
    first | later
  · left
    rw [Nat.max_eq_right first, Nat.pow_add] at narrow
    exact Nat.le_of_mul_le_mul_right narrow (Nat.two_pow_pos _)
  · right
    rw [Nat.max_eq_left later] at narrow
    exact Nat.le_trans (Nat.mul_le_mul_left _ valid.figures) narrow

/-- Equivalent values differ by less than the unit, or by less than one part in ten to the
significant figures. The unit is the power of two that the logarithm of the lowest
discernible value was cut to: rounded up, it can be above that value, but not twice it. -/
theorem resolution (h : Histogram) (value : ℕ) :
    (h.config.highestEquivalentValue value - h.config.lowestEquivalentValue value <
        2 ^ h.config.unitMagnitude ∨
      (h.config.highestEquivalentValue value - h.config.lowestEquivalentValue value) *
        10 ^ h.config.significantFigures < h.config.lowestEquivalentValue value) ∧
    2 ^ h.config.unitMagnitude ≤ 2 * h.config.lowestDiscernibleValue ∧
    h.config.lowestDiscernibleValue < 2 * 2 ^ h.config.unitMagnitude := by
  have ends := class_width h.valid value
  have positive := h.config.scale.width_pos (h.config.scale.position value)
  have unit_lt := h.valid.unit_lt
  rw [Nat.pow_succ, Nat.mul_comm] at unit_lt
  refine ⟨?_, h.valid.unit_le, unit_lt⟩
  rcases width_resolved h.valid value with unit | narrow
  · left
    omega
  · right
    refine Nat.lt_of_lt_of_le (Nat.mul_lt_mul_of_pos_right ?_ (Nat.pow_pos (by decide))) narrow
    omega

/-- For every value of an `int64_t` the bucket numbers are those of a shift, the indices are
those of an `int32_t`, and the ends of the class are those of an `int64_t`. The sum in
`hdr_next_non_equivalent_value` overflows for the values of the last class alone. -/
theorem in_range (h : Histogram) {value : ℕ} (fits : value ≤ INT64_MAX) :
    0 ≤ h.config.getBucketIndex value ∧
    h.config.getBucketIndex value + h.config.unitMagnitude < 63 ∧
    (h.config.getBucketIndex value + 1) * 2 ^ h.config.subBucketHalfCountMagnitude < 2 ^ 31 ∧
    h.config.countsIndexFor value < 2 ^ 31 ∧
    h.config.highestEquivalentValue value ≤ INT64_MAX ∧
    (h.config.hdrNextNonEquivalentValue value ≤ INT64_MAX ↔
      ∃ other ≤ INT64_MAX, h.config.countsIndexFor value < h.config.countsIndexFor other) := by
  have valid := h.valid
  have shifts := valid.shifts
  have half_le := valid.half_le
  have small : value < 2 ^ 63 := by
    unfold INT64_MAX at fits
    omega
  have deep : h.config.scale.half + h.config.scale.unit ≤ 63 := by
    unfold BucketConfig.scale
    dsimp only
    omega
  have level_lt : h.config.scale.level value + h.config.unitMagnitude < 63 := by
    rcases Nat.eq_zero_or_pos value with rfl | positive
    · unfold Scale.level
      rw [Nat.log2_zero]
      omega
    · have := (Nat.log2_lt (Nat.ne_of_gt positive)).mpr small
      unfold Scale.level BucketConfig.scale
      dsimp only
      omega
  have half_pow : 2 ^ h.config.subBucketHalfCountMagnitude ≤ 2 ^ 17 :=
    Nat.pow_le_pow_right Nat.two_pos half_le
  have base : (h.config.scale.level value + 1) * 2 ^ h.config.subBucketHalfCountMagnitude ≤
      63 * 2 ^ 17 := Nat.mul_le_mul (by omega) half_pow
  have slot := h.config.scale.slot_lt value
  have index : h.config.scale.position value < 2 ^ 31 := by
    rw [Nat.add_mul, Nat.one_mul] at base
    rw [show h.config.scale.half = h.config.subBucketHalfCountMagnitude from rfl, Nat.pow_succ] at slot
    rw [Scale.position, show h.config.scale.half = h.config.subBucketHalfCountMagnitude from rfl]
    omega
  have upper := h.config.scale.lowest_succ_le_pow deep small
  have ends := highestEquivalentValue_eq valid value
  rw [hdrNextNonEquivalentValue_eq valid, getBucketIndex_eq valid, countsIndexFor_eq valid]
  refine ⟨Int.natCast_nonneg _, by exact_mod_cast level_lt, ?_, by exact_mod_cast index, ?_, ?_⟩
  · exact_mod_cast Nat.lt_of_le_of_lt base (by decide)
  · unfold INT64_MAX
    omega
  · constructor
    · intro inside
      refine ⟨_, inside, ?_⟩
      rw [countsIndexFor_eq valid, Scale.position_lowest]
      exact Int.ofNat_lt.mpr (Nat.lt_succ_self _)
    · rintro ⟨other, otherFits, later⟩
      rw [countsIndexFor_eq valid, Int.ofNat_lt] at later
      exact Nat.le_trans ((h.config.scale.lowest_le_iff _ _).mpr later) otherFits

/-- The greatest value, in a histogram of the latencies. -/
theorem in_range_greatest : ∃ h, hdrInit 1 3600000000 3 = .ok h ∧
    h.config.countsIndexFor INT64_MAX < 2 ^ 31 ∧
    h.config.highestEquivalentValue INT64_MAX ≤ INT64_MAX := by
  obtain ⟨h, created, _⟩ := hdrInit_of_config latency_config
  obtain ⟨_, _, _, index, highest, _⟩ := in_range h (Nat.le_refl INT64_MAX)
  exact ⟨h, created, index, highest⟩

end YcsbCloud.Guarantees.HdrBuckets
