import Mathlib.Tactic.Linarith
import YcsbCloud.Guarantees.HdrRecording

/-!
# Percentiles of a histogram

`hdr_value_at_percentile` rounds the percentile to a rank and sums the counts from the
start up to it. What it returns is an end of the class of the value that has this rank
among all values counted. The rank is a result of doubles: up to `2 ^ 52` values it is one
of their ranks, and beyond that it can exceed them.
-/
namespace YcsbCloud.Guarantees.HdrPercentiles
open Library Library.LogLinear Library.Machine Library.OrderStatistics Source.HdrHistogram HdrBuckets
  HdrRecording

/-- The rank that a percentile is rounded to, from one on. -/
def rank (percentile : ℚ) (totalCount : ℕ) : ℕ :=
  if 0 < Histogram.countAtPercentile percentile totalCount then
    (Histogram.countAtPercentile percentile totalCount).toNat
  else 1

theorem rank_pos (percentile : ℚ) (totalCount : ℕ) : 0 < rank percentile totalCount := by
  unfold rank
  split <;> omega

theorem toInt64_le {x : ℚ} {n : ℕ} (below : x < n + 1) : Histogram.toInt64 x ≤ n := by
  unfold Histogram.toInt64
  split
  · rw [← Int.lt_add_one_iff, Int.floor_lt]
    exact_mod_cast below
  next negative =>
    have : ⌈x⌉ ≤ 0 := Int.ceil_le.mpr (by push_cast; linarith)
    omega

theorem toInt64_mono {x y : ℚ} (ordered : x ≤ y) :
    Histogram.toInt64 x ≤ Histogram.toInt64 y := by
  unfold Histogram.toInt64
  split
  next nonneg =>
    rw [if_pos (le_trans nonneg ordered)]
    exact Int.floor_le_floor ordered
  next negative =>
    split
    next nonneg =>
      refine le_trans (Int.ceil_le.mpr ?_) (Int.floor_nonneg.mpr nonneg)
      rw [Int.cast_zero]
      exact le_of_lt (not_le.mp negative)
    next _ => exact Int.ceil_le_ceil ordered

/-- With so few values no rounding takes the rank beyond them. -/
theorem countAtPercentile_le (percentile : ℚ) {totalCount : ℕ} (few : totalCount < 2 ^ 52) :
    Histogram.countAtPercentile percentile totalCount ≤ totalCount := by
  have nonneg : (0 : ℚ) ≤ totalCount := Nat.cast_nonneg totalCount
  have whole : Binary64.Representable totalCount := Binary64.representable_natCast (by omega)
  have halves : Binary64.Representable ((2 * totalCount + 1 : ℕ) / 2) :=
    Binary64.representable_natHalf (by omega)
  have part : (if percentile < 100 then percentile else 100) / 100 ≤ 1 := by
    split <;> linarith
  have share := Binary64.round_le whole
    (mul_le_of_le_one_left nonneg (Binary64.round_le Binary64.representable_one part))
  have rounded := Binary64.round_le halves
    (x := Binary64.round (Binary64.round ((if percentile < 100 then percentile else 100) / 100) *
      totalCount) + 1 / 2) (by push_cast; linarith)
  apply toInt64_le
  rw [Binary64.round_natCast (by omega)]
  refine lt_of_le_of_lt rounded ?_
  push_cast
  linarith

theorem rank_le (percentile : ℚ) {totalCount : ℕ} (positive : 0 < totalCount)
    (few : totalCount < 2 ^ 52) : rank percentile totalCount ≤ totalCount := by
  have := countAtPercentile_le percentile few
  unfold rank
  split <;> omega

theorem countAtPercentile_mono {p q : ℚ} (ordered : p ≤ q) (totalCount : ℕ) :
    Histogram.countAtPercentile p totalCount ≤ Histogram.countAtPercentile q totalCount := by
  have part : (if p < 100 then p else 100) / 100 ≤ (if q < 100 then q else 100) / 100 := by
    split <;> split <;> linarith
  have share := Binary64.round_mono (mul_le_mul_of_nonneg_right (Binary64.round_mono part)
    (Binary64.round_nonneg (Nat.cast_nonneg totalCount)))
  exact toInt64_mono (Binary64.round_mono (add_le_add_left share (1 / 2)))

theorem rank_mono {p q : ℚ} (ordered : p ≤ q) (totalCount : ℕ) :
    rank p totalCount ≤ rank q totalCount := by
  have := countAtPercentile_mono ordered totalCount
  unfold rank
  split <;> split <;> omega

/-- The loop stops where the counts from the start on reach the rank. -/
theorem upToCountLoop_eq (c : BucketConfig) (k : ℕ) (counts : List ℕ) (idx countToIdx : ℕ)
    (later : countToIdx < k) :
    Histogram.upToCountLoop c k counts idx countToIdx =
      ((reach counts (k - countToIdx)).map fun i => c.hdrValueAtIndex (idx + i)).getD 0 := by
  induction counts generalizing idx countToIdx with
  | nil => rfl
  | cons count rest ih =>
    rw [Histogram.upToCountLoop, reach]
    by_cases here : k ≤ countToIdx + count
    · rw [if_pos (by exact_mod_cast here), if_pos (by omega)]
      rfl
    · rw [if_neg (by exact_mod_cast here), if_neg (by omega), ih _ _ (by omega), Option.map_map,
        Nat.sub_sub]
      congr 2
      funext i
      rw [Function.comp_apply, Nat.add_right_comm, Nat.add_assoc]

theorem getValueFromIdxUpToCount_eq (h : Histogram) (percentile : ℚ) (totalCount : ℕ) :
    h.getValueFromIdxUpToCount (Histogram.countAtPercentile percentile totalCount) =
      ((reach h.counts (rank percentile totalCount)).map h.config.hdrValueAtIndex).getD 0 := by
  have clamped : (if 0 < Histogram.countAtPercentile percentile totalCount then
      Histogram.countAtPercentile percentile totalCount else 1) =
      (rank percentile totalCount : ℤ) := by
    unfold rank
    split <;> omega
  rw [Histogram.getValueFromIdxUpToCount, clamped, upToCountLoop_eq _ _ _ _ _ (rank_pos ..)]
  simp only [Nat.zero_add, Nat.sub_zero]

/-- The end of its class that a percentile reports for a value. -/
def reported (c : BucketConfig) (percentile : ℚ) (value : ℕ) : ℕ :=
  if percentile = 0 then c.lowestEquivalentValue value else c.highestEquivalentValue value

theorem reported_congr {c : BucketConfig} (valid : c.Valid) (percentile : ℚ) {v w : ℕ}
    (same : c.scale.position v = c.scale.position w) :
    reported c percentile v = reported c percentile w := by
  have first := highestEquivalentValue_eq valid v
  have second := highestEquivalentValue_eq valid w
  unfold reported
  split
  · rw [lowestEquivalentValue_eq valid, lowestEquivalentValue_eq valid, same]
  · rw [same] at first
    omega

/-- The counts reach a rank at the class of the value of this rank. -/
theorem reach_ranked {h : Histogram} {values : List ℕ} (holds : Holds h (slotsOf h.config values))
    {k : ℕ} (positive : 0 < k) (inside : k - 1 < values.mergeSort.length) :
    reach h.counts k = some (h.config.scale.position values.mergeSort[k - 1]) := by
  have smallest := (isSmallest_mergeSort values positive inside).map h.config.scale.position_mono
  rw [holds.counts]
  exact (reach_tally holds.inside positive).mpr smallest

theorem hdrValueAtPercentile_eq {h : Histogram} {values : List ℕ}
    (holds : Holds h (slotsOf h.config values)) (percentile : ℚ)
    (inside : rank percentile values.length - 1 < values.mergeSort.length) :
    h.hdrValueAtPercentile percentile =
      reported h.config percentile (values.mergeSort[rank percentile values.length - 1]) := by
  have reached := reach_ranked holds (rank_pos ..) inside
  have total : h.totalCount = values.length := by
    rw [holds.total, slotsOf, List.length_map]
  rw [Histogram.hdrValueAtPercentile, total, getValueFromIdxUpToCount_eq, reached,
    Option.map_some, Option.getD_some]
  apply reported_congr h.valid
  rw [hdrValueAtIndex_eq h.valid, Scale.position_lowest]

theorem hdrValueAtPercentile_empty {h : Histogram} (holds : Holds h []) (percentile : ℚ) :
    h.hdrValueAtPercentile percentile = reported h.config percentile 0 := by
  have unreached : reach (tally h.config.countsLen []) (rank percentile 0) = none := by
    rw [reach_eq_none (rank_pos ..), sum_tally (by simp)]
    exact rank_pos ..
  rw [Histogram.hdrValueAtPercentile, holds.total, List.length_nil, getValueFromIdxUpToCount_eq,
    holds.counts, unreached]
  rfl

theorem reported_mono {c : BucketConfig} (valid : c.Valid) {p q : ℚ} (nonneg : 0 ≤ p)
    (ordered : p ≤ q) {v w : ℕ} (less : v ≤ w) : reported c p v ≤ reported c q w := by
  have position := c.scale.position_mono less
  have first := highestEquivalentValue_eq valid v
  have second := highestEquivalentValue_eq valid w
  have upper := c.scale.lowest_strictMono.monotone (Nat.succ_le_succ position)
  have low := lowestEquivalentValue_le valid v
  have high := le_highestEquivalentValue valid w
  unfold reported
  split
  next zero =>
    split
    · rw [lowestEquivalentValue_eq valid, lowestEquivalentValue_eq valid]
      exact c.scale.lowest_strictMono.monotone position
    · omega
  next positive =>
    have more : q ≠ 0 := ne_of_gt (lt_of_lt_of_le (lt_of_le_of_ne nonneg (Ne.symm positive)) ordered)
    rw [if_neg more]
    simp only [Nat.succ_eq_add_one] at upper
    omega

/-- The percentiles of a list of values, to within the resolution of the histogram. -/
structure Percentiles (h : Histogram) (values : List ℕ) : Prop where
  empty : values = [] → ∀ p, h.hdrValueAtPercentile p = reported h.config p 0
  ranked : values ≠ [] → ∀ p, ∃ x, values.mergeSort[rank p values.length - 1]? = some x ∧
    h.hdrValueAtPercentile p = reported h.config p x
  mono : ∀ p q, 0 ≤ p → p ≤ q → h.hdrValueAtPercentile p ≤ h.hdrValueAtPercentile q

theorem percentiles_of_holds {h : Histogram} {c : BucketConfig} (same : h.config = c)
    {values : List ℕ} (holds : Holds h (slotsOf c values)) (few : values.length < 2 ^ 52) :
    Percentiles h values := by
  subst same
  have sorted : values.mergeSort.Pairwise (· ≤ ·) := List.pairwise_mergeSort' (· ≤ ·) values
  have whole : values.mergeSort.length = values.length := List.length_mergeSort values
  refine ⟨?_, ?_, ?_⟩
  · rintro rfl p
    exact hdrValueAtPercentile_empty holds p
  · intro nonempty p
    have positive := List.length_pos_of_ne_nil nonempty
    have inside : rank p values.length - 1 < values.mergeSort.length := by
      have := rank_le p positive few
      have := rank_pos p values.length
      omega
    exact ⟨_, List.getElem?_eq_getElem inside, hdrValueAtPercentile_eq holds p inside⟩
  · intro p q nonneg ordered
    by_cases fresh : values = []
    · subst fresh
      rw [hdrValueAtPercentile_empty holds, hdrValueAtPercentile_empty holds]
      exact reported_mono h.valid nonneg ordered (Nat.le_refl 0)
    · have positive := List.length_pos_of_ne_nil fresh
      have ranks := rank_mono ordered values.length
      have least := rank_pos p values.length
      have most := rank_le q positive few
      have first : rank p values.length - 1 < values.mergeSort.length := by omega
      have second : rank q values.length - 1 < values.mergeSort.length := by omega
      rw [hdrValueAtPercentile_eq holds p first, hdrValueAtPercentile_eq holds q second]
      apply reported_mono h.valid nonneg ordered
      rcases Nat.lt_or_eq_of_le ranks with earlier | same
      · exact List.pairwise_iff_getElem.mp sorted _ _ first second (by omega)
      · simp only [same, le_refl]

/-- After a run of recordings every percentile is an end of the class of the value of its
rank among the values counted, and percentiles are in order. The rank is as near to the
percentile of their number as doubles bring it. -/
theorem recordings_ranked {lowest highest : Int64} {figures : Int32} {h : Histogram}
    (created : hdrInit lowest highest figures = .ok h) (calls : List (ℤ × ℕ))
    (positive : ∀ call ∈ calls, 0 < call.2)
    (few : (calls.flatMap (recordValues.values h.config)).length < 2 ^ 52) :
    ∃ final, run recordValues.step h calls =
        some (final, calls.map (recordValues.accepts h.config)) ∧
      final.config = h.config ∧
      Percentiles final (calls.flatMap (recordValues.values h.config)) := by
  obtain ⟨final, ran, same, held⟩ :=
    recordValues_appends.run (hdrInit_spec created).2 calls positive
  rw [List.nil_append] at held
  exact ⟨final, ran, same, percentiles_of_holds same held few⟩

/-- Three latencies, one of them dropped. -/
theorem recordings_ranked_latencies : ∃ h final, hdrInit 1 3600000000 3 = .ok h ∧
    run recordValues.step h [(4000, 1), (-1, 1), (900, 1)] = some (final, [true, false, true]) ∧
      Percentiles final [4000, 900] := by
  obtain ⟨h, created, config⟩ := hdrInit_of_config latency_config
  obtain ⟨final, ran, _, percentiles⟩ :=
    recordings_ranked created [(4000, 1), (-1, 1), (900, 1)] (by decide)
      (by rw [config]; decide)
  rw [config] at ran percentiles
  exact ⟨h, final, created, ran, percentiles⟩

end YcsbCloud.Guarantees.HdrPercentiles
