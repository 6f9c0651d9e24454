import Mathlib.Algebra.Order.BigOperators.Group.List
import YcsbCloud.Guarantees.HdrIterator
import YcsbCloud.Guarantees.HdrPercentiles

/-!
# Percentiles in one pass, and the mean

`hdr_value_at_percentiles` finds its percentiles one after the other in a single pass, so
that one out of order is taken for the greatest before it. `hdr_mean` averages the medians
of the classes.
-/
namespace YcsbCloud.Guarantees.HdrSummaries
open Library Library.LogLinear Library.Machine Library.OrderStatistics Source.HdrHistogram HdrBuckets
  HdrIterator HdrRecording HdrPercentiles

/-- The inner loop settles the ranks at the front that are reached. -/
theorem fillLoop_eq (highest total : ℕ) (done : List ℤ) (pending : List ℕ) :
    Histogram.fillLoop highest total (done ++ pending.map fun r : ℕ => (r : ℤ)) done.length =
      (done ++ List.replicate (pending.takeWhile (· ≤ total)).length (highest : ℤ) ++
        (pending.dropWhile (· ≤ total)).map fun r : ℕ => (r : ℤ),
        done.length + (pending.takeWhile (· ≤ total)).length) := by
  induction pending generalizing done with
  | nil =>
    rw [Histogram.fillLoop, dif_neg (by simp)]
    simp
  | cons r rest ih =>
    have inside : done.length < (done ++ (r :: rest).map fun r : ℕ => (r : ℤ)).length := by simp
    have first : (done ++ (r :: rest).map fun r : ℕ => (r : ℤ))[done.length] = r := by simp
    rw [Histogram.fillLoop, dif_pos inside, first]
    by_cases reached : r ≤ total
    · have settled : (done ++ (r :: rest).map fun r : ℕ => (r : ℤ)).set done.length highest =
          (done ++ [(highest : ℤ)]) ++ rest.map fun r : ℕ => (r : ℤ) := by
        rw [List.set_append_right _ _ (Nat.le_refl _), Nat.sub_self, List.map_cons, List.set_cons_zero,
          List.append_assoc, List.singleton_append]
      have next := ih (done ++ [(highest : ℤ)])
      rw [List.length_append, List.length_singleton] at next
      rw [if_pos (by exact_mod_cast reached), settled, next, List.takeWhile_cons_of_pos (by simpa),
        List.dropWhile_cons_of_pos (by simpa), List.length_cons, List.replicate_succ]
      simp only [List.append_assoc, List.cons_append, List.nil_append, Nat.add_assoc,
        Nat.add_comm 1]
    · rw [if_neg (by exact_mod_cast reached), List.takeWhile_cons_of_neg (by simpa using reached),
        List.dropWhile_cons_of_neg (by simpa using reached)]
      simp

/-- The highest value of the class that a rank is in. -/
def classEnd (source : Histogram) (r : ℕ) : ℕ :=
  source.config.highestEquivalentValue
    (((reach source.counts r).map source.config.hdrValueAtIndex).getD 0)

theorem classEnd_eq {source : Histogram} {r i : ℕ} (after : (source.counts.take i).sum < r)
    (reached : r ≤ (source.counts.take (i + 1)).sum) :
    classEnd source r =
      source.config.highestEquivalentValue (source.config.hdrValueAtIndex i) := by
  have class_i : reach source.counts r = some i :=
    (reach_eq_some (Nat.zero_lt_of_lt after)).mpr ⟨after, reached⟩
  rw [classEnd, class_i, Option.map_some, Option.getD_some]

/-- The running maxima that end in one class. -/
theorem runningMax_class {source : Histogram} {i m : ℕ} (pending : List ℕ)
    (before : m ≤ (source.counts.take (i + 1)).sum)
    (beyond : ∀ r ∈ pending.head?, (source.counts.take i).sum < max m r) :
    ∃ m' ≤ (source.counts.take (i + 1)).sum,
      (runningMax m pending).map (classEnd source) =
        List.replicate (pending.takeWhile (· ≤ (source.counts.take (i + 1)).sum)).length
            (source.config.highestEquivalentValue (source.config.hdrValueAtIndex i)) ++
          (runningMax m' (pending.dropWhile (· ≤ (source.counts.take (i + 1)).sum))).map
            (classEnd source) := by
  induction pending generalizing m with
  | nil => exact ⟨m, before, rfl⟩
  | cons r rest ih =>
    by_cases reached : r ≤ (source.counts.take (i + 1)).sum
    · have after : (source.counts.take i).sum < max m r := beyond r rfl
      have within : max m r ≤ (source.counts.take (i + 1)).sum := max_le before reached
      obtain ⟨m', bound, later⟩ := ih within fun s _ => lt_of_lt_of_le after (le_max_left ..)
      refine ⟨m', bound, ?_⟩
      rw [runningMax, List.map_cons, later, classEnd_eq after within,
        List.takeWhile_cons_of_pos (by simpa), List.dropWhile_cons_of_pos (by simpa),
        List.length_cons, List.replicate_succ, List.cons_append]
    · refine ⟨m, before, ?_⟩
      rw [List.takeWhile_cons_of_neg (by simpa using reached),
        List.dropWhile_cons_of_neg (by simpa using reached)]
      rfl

theorem head_dropWhile {pending : List ℕ} {total r : ℕ}
    (first : r ∈ (pending.dropWhile (· ≤ total)).head?) : total < r := by
  have unmet := List.head?_dropWhile_not (fun r : ℕ => decide (r ≤ total)) pending
  rw [Option.mem_def] at first
  rw [first] at unmet
  simpa using unmet

/-- The outer loop settles every rank that the whole histogram reaches. -/
theorem percentilesLoop_eq {source : Histogram} (offset : source.normalizingIndexOffset = 0)
    {iter : Iter} {i : ℕ} (position : At source iter i) (done : List ℤ) {pending : List ℕ} {m : ℕ}
    (before : m ≤ (source.counts.take i).sum)
    (beyond : ∀ r ∈ pending.head?, (source.counts.take i).sum < r)
    (reachable : ∀ r ∈ pending, r ≤ source.counts.sum) :
    source.percentilesLoop iter (source.counts.take i).sum
        (done ++ pending.map fun r : ℕ => (r : ℤ)) done.length =
      done ++ (runningMax m pending).map fun r => (classEnd source r : ℤ) := by
  induction left : source.counts.length - i generalizing i iter done pending m with
  | zero =>
    have stopped := moveNext_end position (by omega)
    have settled : pending = [] := by
      by_contra some_left
      obtain ⟨r, rest, rfl⟩ := List.exists_cons_of_ne_nil some_left
      have above := beyond r rfl
      have below := reachable r (List.mem_cons_self ..)
      rw [List.take_of_length_le (by omega)] at above
      omega
    subst settled
    rw [Histogram.percentilesLoop]
    split
    next => rfl
    next next moved =>
      rw [moved] at stopped
      cases stopped
  | succ n ih =>
    have inside : i < source.counts.length := by omega
    obtain ⟨next, moved, nextAt, count, value⟩ := moveNext_at offset position inside
    rw [Histogram.percentilesLoop]
    split
    next other stopped =>
      rw [moved] at stopped
      cases stopped
    next other reached =>
      rw [moved] at reached
      cases reached
      split
      next some_left =>
        obtain ⟨m', bound, classes⟩ := runningMax_class pending
          (le_trans before (by rw [sum_take_succ inside]; omega))
          fun r first => lt_of_lt_of_le (beyond r first) (le_max_right ..)
        have later := ih nextAt
          (done ++ List.replicate (pending.takeWhile (· ≤ (source.counts.take (i + 1)).sum)).length
            (source.config.highestEquivalentValue (source.config.hdrValueAtIndex i) : ℤ))
          bound (fun r first => head_dropWhile first)
          (fun r member => reachable r ((List.dropWhile_sublist _).subset member)) (by omega)
        have casts (rs : List ℕ) : rs.map (fun r => (classEnd source r : ℤ)) =
            (rs.map (classEnd source)).map fun v : ℕ => (v : ℤ) := by
          rw [List.map_map]
          rfl
        rw [count, value, ← sum_take_succ inside, fillLoop_eq]
        dsimp only
        rw [List.length_append, List.length_replicate] at later
        rw [later, casts, casts, classes, List.map_append, List.map_replicate, List.append_assoc]
      next none_left =>
        have settled : pending = [] := by
          rw [List.length_append, List.length_map] at none_left
          exact List.length_eq_zero_iff.mp (by omega)
        subst settled
        rfl

theorem highestEquivalentValue_congr {c : BucketConfig} (valid : c.Valid) {v w : ℕ}
    (same : c.scale.position v = c.scale.position w) :
    c.highestEquivalentValue v = c.highestEquivalentValue w := by
  have first := highestEquivalentValue_eq valid v
  have second := highestEquivalentValue_eq valid w
  rw [same] at first
  omega

theorem classEnd_rank (h : Histogram) (percentile : ℚ) :
    classEnd h (rank percentile h.totalCount) =
      h.config.highestEquivalentValue (h.hdrValueAtPercentile percentile) := by
  apply highestEquivalentValue_congr h.valid
  rw [Histogram.hdrValueAtPercentile, getValueFromIdxUpToCount_eq]
  split
  · rw [lowestEquivalentValue_eq h.valid, Scale.position_lowest]
  · rw [position_highestEquivalentValue h.valid]

theorem rank_eq (percentile : ℚ) (totalCount : ℕ) :
    (if Histogram.countAtPercentile percentile totalCount > 1 then
      Histogram.countAtPercentile percentile totalCount else 1) = (rank percentile totalCount : ℤ) := by
  unfold rank
  split <;> split <;> omega

theorem rank_zero (totalCount : ℕ) : rank 0 totalCount = 1 := by
  have half : Binary64.round (1 / 2) = 1 / 2 := by
    exact_mod_cast Binary64.round_eq (Binary64.representable_natHalf (n := 1) (by norm_num))
  have least : Histogram.countAtPercentile 0 totalCount = 0 := by
    norm_num [Histogram.countAtPercentile, Histogram.toInt64, Binary64.round_zero, half]
  rw [rank, least]
  rfl

theorem hdrValueAtPercentiles_eq {h : Histogram} (offset : h.normalizingIndexOffset = 0)
    (consistent : h.totalCount = h.counts.sum) (nonempty : 0 < h.totalCount)
    (few : h.totalCount < 2 ^ 52) (percentiles : List ℚ) :
    h.hdrValueAtPercentiles percentiles = (runningMax 0 percentiles).map fun p =>
      (h.config.highestEquivalentValue (h.hdrValueAtPercentile p) : ℤ) := by
  have least : runningMax 0 (percentiles.map (rank · h.totalCount)) =
      (runningMax 0 percentiles).map (rank · h.totalCount) := by
    rw [← runningMax_map (fun _ _ ordered => rank_mono ordered h.totalCount), rank_zero]
    cases percentiles with
    | nil => rfl
    | cons p rest =>
      have one := rank_pos p h.totalCount
      rw [List.map_cons, runningMax, runningMax, max_eq_right (Nat.zero_le _), max_eq_right one]
  have beyond : ∀ r ∈ (percentiles.map (rank · h.totalCount)).head?, (h.counts.take 0).sum < r := by
    intro r first
    obtain ⟨p, _, rfl⟩ := List.mem_map.mp (List.mem_of_mem_head? first)
    exact rank_pos p h.totalCount
  have reachable : ∀ r ∈ percentiles.map (rank · h.totalCount), r ≤ h.counts.sum := by
    intro r member
    obtain ⟨p, _, rfl⟩ := List.mem_map.mp member
    rw [← consistent]
    exact rank_le p nonempty few
  have looped := percentilesLoop_eq offset (at_hdrIterInit h) [] (Nat.le_refl 0) beyond reachable
  rw [List.map_map, List.nil_append, List.nil_append, List.take_zero, List.sum_nil, least,
    List.map_map] at looped
  rw [Histogram.hdrValueAtPercentiles, List.map_congr_left fun p _ => rank_eq p h.totalCount]
  refine Eq.trans looped ?_
  apply List.map_congr_left
  intro p _
  rw [Function.comp_apply, classEnd_rank]

theorem fillLoop_unreached {total : ℕ} {values : List ℤ} (above : ∀ v ∈ values, (total : ℤ) < v)
    (highest atPos : ℕ) : Histogram.fillLoop highest total values atPos = (values, atPos) := by
  rw [Histogram.fillLoop]
  split
  next inside => rw [if_neg (not_le.mpr (above _ (List.getElem_mem inside)))]
  next _ => rfl

/-- No rank is settled in a histogram that counts nothing. -/
theorem percentilesLoop_empty {source : Histogram} (holds : Holds source []) {values : List ℤ}
    (above : ∀ v ∈ values, 0 < v) {iter : Iter} {i : ℕ} (position : At source iter i) :
    source.percentilesLoop iter 0 values 0 = values := by
  induction left : source.counts.length - i generalizing i iter with
  | zero =>
    have stopped := moveNext_end position (by omega)
    rw [Histogram.percentilesLoop]
    split
    next => rfl
    next next moved =>
      rw [moved] at stopped
      cases stopped
  | succ n ih =>
    have inside : i < source.counts.length := by omega
    obtain ⟨next, moved, nextAt, count, value⟩ := moveNext_at holds.offset position inside
    have zero : source.counts[i] = 0 := by
      rw [getElem_congr_coll holds.counts, getElem_tally, List.count_nil]
    rw [Histogram.percentilesLoop]
    split
    next => rfl
    next other reached =>
      rw [moved] at reached
      cases reached
      split
      next _ =>
        rw [count, zero, fillLoop_unreached (by simpa using above)]
        exact ih nextAt (by omega)
      next _ => rfl

theorem hdrValueAtPercentiles_empty {h : Histogram} (holds : Holds h []) (percentiles : List ℚ) :
    h.hdrValueAtPercentiles percentiles = percentiles.map fun _ => 1 := by
  have ones : percentiles.map (fun p => if Histogram.countAtPercentile p h.totalCount > 1 then
      Histogram.countAtPercentile p h.totalCount else 1) = percentiles.map fun _ => 1 := by
    apply List.map_congr_left
    intro p _
    have most : Histogram.countAtPercentile p 0 ≤ 0 := countAtPercentile_le p (by decide)
    rw [holds.total, List.length_nil, if_neg (by omega)]
  rw [Histogram.hdrValueAtPercentiles, ones]
  refine percentilesLoop_empty holds ?_ (at_hdrIterInit h)
  intro v member
  obtain ⟨_, _, rfl⟩ := List.mem_map.mp member
  exact Int.one_pos

/-- After a run of recordings the percentiles found in one pass are the highest values of the
classes that `hdr_value_at_percentile` finds for the greatest percentile so far; with
nothing counted they are all one. -/
theorem percentiles_in_one_pass {lowest highest : Int64} {figures : Int32} {h : Histogram}
    (created : hdrInit lowest highest figures = .ok h) (calls : List (ℤ × ℕ))
    (positive : ∀ call ∈ calls, 0 < call.2)
    (few : (calls.flatMap (recordValues.values h.config)).length < 2 ^ 52) :
    ∃ final, run recordValues.step h calls =
        some (final, calls.map (recordValues.accepts h.config)) ∧
      ∀ percentiles, final.hdrValueAtPercentiles percentiles =
        if calls.flatMap (recordValues.values h.config) = [] then percentiles.map fun _ => 1
        else (runningMax 0 percentiles).map fun p =>
          (h.config.highestEquivalentValue (final.hdrValueAtPercentile p) : ℤ) := by
  obtain ⟨final, ran, same, held⟩ :=
    recordValues_appends.run (hdrInit_spec created).2 calls positive
  rw [List.nil_append] at held
  refine ⟨final, ran, ?_⟩
  intro percentiles
  split
  next fresh =>
    rw [fresh] at held
    exact hdrValueAtPercentiles_empty held percentiles
  next some_counted =>
    have total : final.totalCount = (calls.flatMap (recordValues.values h.config)).length := by
      rw [held.total, slotsOf, List.length_map]
    have nonempty : 0 < final.totalCount := by
      rw [total]
      exact List.length_pos_of_ne_nil some_counted
    rw [← same]
    exact hdrValueAtPercentiles_eq held.offset held.consistent nonempty (total ▸ few) percentiles

/-- The percentiles of the report, in order and out of order. -/
theorem percentiles_in_one_pass_report : ∃ h final, hdrInit 1 3600000000 3 = .ok h ∧
    run recordValues.step h [(250, 1), (4000, 1)] = some (final, [true, true]) ∧
    final.hdrValueAtPercentiles [95, 99] = [95, 99].map (fun p =>
      (h.config.highestEquivalentValue (final.hdrValueAtPercentile p) : ℤ)) ∧
    final.hdrValueAtPercentiles [99, 95] = [99, 99].map (fun p =>
      (h.config.highestEquivalentValue (final.hdrValueAtPercentile p) : ℤ)) := by
  obtain ⟨h, created, config⟩ := hdrInit_of_config latency_config
  obtain ⟨final, ran, passes⟩ := percentiles_in_one_pass created [(250, 1), (4000, 1)] (by decide)
    (by rw [config]; decide)
  have some_counted : [(250, 1), (4000, 1)].flatMap (recordValues.values h.config) ≠ [] := by
    rw [config]
    decide
  have later := passes [95, 99]
  have earlier := passes [99, 95]
  rw [if_neg some_counted, runningMax_sorted (by decide)] at later
  rw [if_neg some_counted, show runningMax 0 [(99 : ℚ), 95] = [99, 99] by decide +kernel] at earlier
  rw [config] at ran
  exact ⟨h, final, created, ran, later, earlier⟩

/-- A sum that has to stay in an `int64_t`. -/
def summed (total : ℕ) : Option ℕ := if INT64_MAX < total then none else some total

/-- The sum over the classes ahead. -/
theorem meanLoop_eq {source : Histogram} (offset : source.normalizingIndexOffset = 0)
    (consistent : source.totalCount = source.counts.sum) {iter : Iter} {i : ℕ}
    (position : At source iter i) {total : ℕ} (fits : total ≤ INT64_MAX) :
    source.meanLoop iter total (source.counts.take i).sum =
      summed (total + ((ahead source i).map fun e =>
        e.1 * source.config.hdrMedianEquivalentValue (source.config.hdrValueAtIndex e.2)).sum) := by
  induction left : source.counts.length - i generalizing i iter total with
  | zero =>
    have stopped := moveNext_end position (by omega)
    rw [Histogram.meanLoop, ahead, List.drop_eq_nil_of_le (by omega)]
    split
    next => exact (if_neg (Nat.not_lt.mpr fits)).symm
    next next moved =>
      rw [moved] at stopped
      cases stopped
  | succ n ih =>
    have inside : i < source.counts.length := by omega
    have parts : (source.counts.take i).sum + (source.counts.drop i).sum = source.counts.sum :=
      List.sum_take_add_sum_drop ..
    obtain ⟨next, moved, nextAt, count, value⟩ := moveNext_at offset position inside
    rw [Histogram.meanLoop]
    split
    next other stopped =>
      rw [moved] at stopped
      cases stopped
    next other reached =>
      rw [moved] at reached
      cases reached
      have upTo := sum_take_succ inside
      split
      next some_left =>
        rw [ahead_step inside]
        split
        next counted =>
          rw [count] at counted
          rw [count, value, ← upTo, if_neg (Ne.symm counted), List.map_cons, List.sum_cons,
            ← Nat.add_assoc]
          dsimp only
          split
          next beyond => exact (if_pos (Nat.lt_of_lt_of_le beyond (Nat.le_add_right ..))).symm
          next within => exact ih nextAt (Nat.le_of_not_lt within) (by omega)
        next uncounted =>
          have zero : source.counts[i] = 0 := by
            rw [count] at uncounted
            omega
          have same : (source.counts.take i).sum = (source.counts.take (i + 1)).sum := by
            rw [upTo, zero]
            rfl
          rw [same, ih nextAt fits (by omega), if_pos zero]
      next none_left =>
        rw [ahead, entries_eq_nil (by omega)]
        exact (if_neg (Nat.not_lt.mpr fits)).symm

/-- The sum of the mean is that of the medians of the classes of the values. -/
theorem meanLoop_medians {h : Histogram} {values : List ℕ}
    (holds : Holds h (slotsOf h.config values)) :
    h.meanLoop h.hdrIterInit 0 0 = summed (values.map h.config.hdrMedianEquivalentValue).sum := by
  have looped := meanLoop_eq holds.offset holds.consistent (at_hdrIterInit h) (Nat.zero_le INT64_MAX)
  have classes : ((entries h.counts 0).map fun e =>
      e.1 * h.config.hdrMedianEquivalentValue (h.config.hdrValueAtIndex e.2)).sum =
      (values.map h.config.hdrMedianEquivalentValue).sum := by
    refine (sum_map_expand (fun i => h.config.hdrMedianEquivalentValue
      (h.config.hdrValueAtIndex i)) h.counts 0).symm.trans ?_
    rw [holds.counts, ((expand_tally holds.inside).map _).sum_eq, slotsOf, List.map_map]
    congr 1
    apply List.map_congr_left
    intro v _
    have same : h.config.scale.position (h.config.scale.lowest (h.config.scale.position v)) =
      h.config.scale.position v := h.config.scale.position_lowest _
    rw [Function.comp_apply, hdrValueAtIndex_eq h.valid, BucketConfig.hdrMedianEquivalentValue,
      BucketConfig.hdrMedianEquivalentValue, lowestEquivalentValue_eq h.valid,
      lowestEquivalentValue_eq h.valid, hdrSizeOfEquivalentValueRange_eq h.valid,
      hdrSizeOfEquivalentValueRange_eq h.valid, same]
  rwa [List.take_zero, List.sum_nil, Nat.zero_add, ahead, List.drop_zero, classes] at looped

/-- The mean is the quotient of their sum and number, in doubles. -/
theorem hdrMean_eq {h : Histogram} {values : List ℕ} (holds : Holds h (slotsOf h.config values)) :
    h.hdrMean =
      if INT64_MAX < (values.map h.config.hdrMedianEquivalentValue).sum then .error .overflow
      else if values = [] then .error .nan
      else .ok (Binary64.round (Binary64.round (values.map h.config.hdrMedianEquivalentValue).sum /
        Binary64.round values.length)) := by
  have total : h.totalCount = values.length := by rw [holds.total, slotsOf, List.length_map]
  rw [Histogram.hdrMean, meanLoop_medians holds, total, summed]
  split_ifs <;> simp_all

/-- The average of values. -/
def average (values : List ℕ) : ℚ := values.sum / values.length

theorem sum_close {f : ℕ → ℕ} {a b : ℚ} (close : ∀ v : ℕ, |(f v : ℚ) - v| ≤ a * v + b)
    (values : List ℕ) :
    |((values.map f).sum : ℚ) - values.sum| ≤ a * values.sum + b * values.length := by
  induction values with
  | nil => simp
  | cons v rest ih =>
    have first := close v
    rw [abs_le] at first ih ⊢
    simp only [List.map_cons, List.sum_cons, List.length_cons, Nat.cast_add, Nat.cast_one]
    constructor <;> linarith

theorem average_close {f : ℕ → ℕ} {a b : ℚ} (close : ∀ v : ℕ, |(f v : ℚ) - v| ≤ a * v + b)
    {values : List ℕ} (nonempty : values ≠ []) :
    |((values.map f).sum : ℚ) / values.length - average values| ≤ a * average values + b := by
  have positive : (0 : ℚ) < values.length := by
    exact_mod_cast List.length_pos_of_ne_nil nonempty
  rw [average, ← sub_div, abs_div, abs_of_pos positive, div_le_iff₀ positive]
  refine le_trans (sum_close close values) (le_of_eq ?_)
  field_simp

/-- Half of what a histogram resolves at a value. -/
def halfResolution (c : BucketConfig) (value : ℚ) : ℚ :=
  1 / (2 * 10 ^ c.significantFigures) * value + (2 ^ c.unitMagnitude / 2 : ℕ)

/-- The median of its class is not further from a value than half the class is wide. -/
theorem median_close (h : Histogram) (value : ℕ) :
    |(h.config.hdrMedianEquivalentValue value : ℚ) - value| ≤ halfResolution h.config value := by
  have valid := h.valid
  have low := lowestEquivalentValue_le valid value
  have high := le_highestEquivalentValue valid value
  have ends := class_width valid value
  have resolved := width_resolved valid value
  have median : h.config.hdrMedianEquivalentValue value = h.config.lowestEquivalentValue value +
      h.config.scale.width (h.config.scale.position value) / 2 := by
    rw [BucketConfig.hdrMedianEquivalentValue, hdrSizeOfEquivalentValueRange_eq valid,
      Nat.shiftRight_eq_div_pow, Nat.pow_one]
  rw [median]
  generalize h.config.highestEquivalentValue value = highest at ends high
  generalize h.config.lowestEquivalentValue value = lowest at low ends resolved
  generalize h.config.scale.width (h.config.scale.position value) = width at ends resolved
  have halfway : |((lowest + width / 2 : ℕ) : ℚ) - value| ≤ (width / 2 : ℕ) := by
    rw [abs_le, neg_le_sub_iff_le_add, sub_le_iff_le_add]
    constructor
    · exact_mod_cast (by omega : value ≤ lowest + width / 2 + width / 2)
    · exact_mod_cast (by omega : lowest + width / 2 ≤ width / 2 + value)
  refine le_trans halfway ?_
  unfold halfResolution
  have figures_pos : (0 : ℚ) < 2 * 10 ^ h.config.significantFigures := by positivity
  rcases resolved with unit | narrow
  · have share : (0 : ℚ) ≤ 1 / (2 * 10 ^ h.config.significantFigures) * value := by positivity
    have half : ((width / 2 : ℕ) : ℚ) ≤ (2 ^ h.config.unitMagnitude / 2 : ℕ) := by
      exact_mod_cast Nat.div_le_div_right unit
    linarith
  · have part : 2 * 10 ^ h.config.significantFigures * (width / 2) ≤ value := by
      calc 2 * 10 ^ h.config.significantFigures * (width / 2)
          = 2 * (width / 2) * 10 ^ h.config.significantFigures := by ring
        _ ≤ width * 10 ^ h.config.significantFigures := Nat.mul_le_mul_right _ (by omega)
        _ ≤ value := Nat.le_trans narrow low
    have share : ((width / 2 : ℕ) : ℚ) ≤ 1 / (2 * 10 ^ h.config.significantFigures) * value := by
      rw [one_div, ← div_eq_inv_mul, le_div_iff₀' figures_pos]
      exact_mod_cast part
    have unit : (0 : ℚ) ≤ (2 ^ h.config.unitMagnitude / 2 : ℕ) := by positivity
    linarith

/-- The average of values, to within half the resolution and the rounding of three results to
53 bits. -/
def IsMean (c : BucketConfig) (values : List ℕ) (mean : ℚ) : Prop :=
  |mean - average values| ≤ halfResolution c (average values) +
    (average values + halfResolution c (average values)) / 2 ^ 51

theorem mean_of_holds {h : Histogram} {c : BucketConfig} (same : h.config = c) {values : List ℕ}
    (holds : Holds h (slotsOf c values)) (nonempty : values ≠ [])
    (countable : values.length < 2 ^ 63)
    (fits : (values.map c.hdrMedianEquivalentValue).sum ≤ INT64_MAX) :
    ∃ mean, h.hdrMean = .ok mean ∧ IsMean c values mean := by
  subst same
  have rounded := Binary64.round_div_close (values.map h.config.hdrMedianEquivalentValue).sum
    (List.length_pos_of_ne_nil nonempty) countable
  have resolved : |((values.map h.config.hdrMedianEquivalentValue).sum : ℚ) / values.length -
      average values| ≤ halfResolution h.config (average values) :=
    average_close (median_close h) nonempty
  rw [hdrMean_eq holds, if_neg (Nat.not_lt.mpr fits), if_neg nonempty]
  refine ⟨_, rfl, ?_⟩
  obtain ⟨below, above⟩ := abs_le.mp rounded
  obtain ⟨resolved_below, resolved_above⟩ := abs_le.mp resolved
  rw [IsMean, abs_le]
  constructor <;> linarith

/-- After a run of recordings the mean is the average of the values counted, if the sum of
their medians fits. -/
theorem mean_resolved {lowest highest : Int64} {figures : Int32} {h : Histogram}
    (created : hdrInit lowest highest figures = .ok h) (calls : List (ℤ × ℕ))
    (positive : ∀ call ∈ calls, 0 < call.2)
    (some_counted : calls.flatMap (recordValues.values h.config) ≠ [])
    (countable : (calls.flatMap (recordValues.values h.config)).length < 2 ^ 63)
    (fits : ((calls.flatMap (recordValues.values h.config)).map
      h.config.hdrMedianEquivalentValue).sum ≤ INT64_MAX) :
    ∃ final mean, run recordValues.step h calls =
        some (final, calls.map (recordValues.accepts h.config)) ∧ final.hdrMean = .ok mean ∧
      IsMean h.config (calls.flatMap (recordValues.values h.config)) mean := by
  obtain ⟨final, ran, same, held⟩ :=
    recordValues_appends.run (hdrInit_spec created).2 calls positive
  rw [List.nil_append] at held
  obtain ⟨mean, computed, close⟩ := mean_of_holds same held some_counted countable fits
  exact ⟨final, mean, ran, computed, close⟩

/-- The mean of two latencies is not off by more than one part in nineteen hundred. -/
theorem mean_resolved_latencies : ∃ h final mean, hdrInit 1 3600000000 3 = .ok h ∧
    run recordValues.step h [(250, 1), (4000, 1)] = some (final, [true, true]) ∧
    final.hdrMean = .ok mean ∧ |mean - 2125| ≤ 2125 / 1900 := by
  obtain ⟨h, created, config⟩ := hdrInit_of_config latency_config
  have counted : [(250, 1), (4000, 1)].flatMap (recordValues.values h.config) = [250, 4000] := by
    rw [config]
    decide
  obtain ⟨final, mean, ran, computed, close⟩ := mean_resolved created [(250, 1), (4000, 1)]
    (by decide) (by rw [counted]; decide) (by rw [counted]; decide)
    (by rw [counted, config]; decide)
  have middle : average [250, 4000] = 2125 := by norm_num [average]
  rw [counted, config, IsMean, middle] at close
  rw [config] at ran
  refine ⟨h, final, mean, created, ran, computed, le_trans close ?_⟩
  norm_num [halfResolution]

end YcsbCloud.Guarantees.HdrSummaries
