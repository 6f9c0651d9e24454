import Mathlib.Tactic.Positivity
import YcsbCloud.Guarantees.HdrSummaries
import YcsbCloud.Source.HdrPercentileIterator

/-!
# Every line is a nearest rank

The iterator passes a class only when its percentile is above all counts up to the class, so
that a line reports the class of the nearest rank of its percentile. Short of the last class a
tick is no smaller than the share of half a value, which bounds the lines.
-/
namespace YcsbCloud.Guarantees.HdrPercentileLines
open Library.LogLinear Library.Machine Library.OrderStatistics Source.HdrHistogram HdrBuckets
  HdrIterator HdrRecording HdrPercentiles HdrSummaries

theorem lt_two_pow_log (x : ℚ) : x < 2 ^ (Nat.log 2 ⌊x⌋₊ + 1) := by
  have above := Nat.lt_pow_succ_log_self (Nat.one_lt_two) ⌊x⌋₊
  have next := Nat.lt_of_floor_lt above
  exact_mod_cast next

theorem two_pow_log_le {x : ℚ} (one_le : 1 ≤ x) : 2 ^ (Nat.log 2 ⌊x⌋₊) ≤ x := by
  have nonzero : ⌊x⌋₊ ≠ 0 := Nat.ne_of_gt (Nat.floor_pos.mpr one_le)
  calc (2 ^ (Nat.log 2 ⌊x⌋₊) : ℚ) ≤ (⌊x⌋₊ : ℚ) := by exact_mod_cast Nat.pow_log_le_self 2 nonzero
    _ ≤ x := Nat.floor_le (le_trans zero_le_one one_le)

section Ticks

variable {ticks : ℕ} (positive : 0 < ticks)

include positive

theorem percentileTick_pos (p : ℚ) : 0 < percentileTick ticks p := by
  have : (0 : ℚ) < ticks := Nat.cast_pos.mpr positive
  unfold percentileTick
  positivity

/-- No tick goes beyond 100. -/
theorem percentileTick_lt {p : ℚ} (below : p < 100) : p + percentileTick ticks p < 100 := by
  have left : 0 < 100 - p := sub_pos.mpr below
  have one_le : (1 : ℚ) ≤ ticks := Nat.one_le_cast.mpr positive
  have distance := lt_two_pow_log (100 / (100 - p))
  rw [div_lt_iff₀ left] at distance
  unfold percentileTick
  dsimp only
  generalize Nat.log 2 ⌊100 / (100 - p)⌋₊ + 1 = temp at distance ⊢
  have power : (0 : ℚ) < 2 ^ temp := by positivity
  have tick : (100 : ℚ) / (ticks * 2 ^ temp) < 100 - p := by
    rw [div_lt_iff₀ (by positivity)]
    calc (100 : ℚ) < 2 ^ temp * (100 - p) := distance
      _ ≤ ticks * (2 ^ temp * (100 - p)) := le_mul_of_one_le_left (by positivity) one_le
      _ = (100 - p) * (ticks * 2 ^ temp) := by ring
  push_cast
  linarith

/-- A tick is at least the share of half a value while the last value is not reached. -/
theorem percentileTick_ge {p : ℚ} (nonneg : 0 ≤ p) {n : ℕ} (some_counted : 0 < n)
    (short : p * n ≤ 100 * (n - 1)) : 100 ≤ percentileTick ticks p * (ticks * (2 * n)) := by
  have counted : (0 : ℚ) < n := Nat.cast_pos.mpr some_counted
  have ticking : (0 : ℚ) < ticks := Nat.cast_pos.mpr positive
  have left : 0 < 100 - p := by
    by_contra none_left
    have : 100 * (n : ℚ) ≤ p * n := mul_le_mul_of_nonneg_right (by linarith) counted.le
    linarith
  have one_le : 1 ≤ 100 / (100 - p) := by
    rw [le_div_iff₀ left]
    linarith
  have distance : 100 / (100 - p) ≤ n := by
    rw [div_le_iff₀ left]
    linarith
  have power := le_trans (two_pow_log_le one_le) distance
  unfold percentileTick
  dsimp only
  push_cast
  rw [pow_succ]
  have some_power : (0 : ℚ) < 2 ^ Nat.log 2 ⌊100 / (100 - p)⌋₊ := by positivity
  generalize (2 : ℚ) ^ Nat.log 2 ⌊100 / (100 - p)⌋₊ = halves at power some_power ⊢
  have scaled := mul_le_mul_of_nonneg_left power ticking.le
  rw [div_mul_eq_mul_div, le_div_iff₀ (by positivity)]
  linarith

/-- A bound of the ticks that are left short of the last value. -/
def ticksLeft (ticks n : ℕ) (p : ℚ) : ℕ := ⌈(100 - p) * (ticks * (2 * n)) / 100⌉₊

theorem ticksLeft_lt {p : ℚ} (nonneg : 0 ≤ p) (below : p < 100) {n : ℕ} (some_counted : 0 < n)
    (short : p * n ≤ 100 * (n - 1)) :
    ticksLeft ticks n (p + percentileTick ticks p) < ticksLeft ticks n p := by
  have tick := percentileTick_ge positive nonneg some_counted short
  have counted : (0 : ℚ) < n := Nat.cast_pos.mpr some_counted
  have ticking : (0 : ℚ) < ticks := Nat.cast_pos.mpr positive
  have left : 0 < 100 - p := sub_pos.mpr below
  have fewer : (100 - (p + percentileTick ticks p)) * (ticks * (2 * n)) / 100 ≤
      (100 - p) * (ticks * (2 * n)) / 100 - 1 := by
    rw [div_le_iff₀ (by norm_num)]
    linarith
  have some_left : 0 < ⌈(100 - p) * (ticks * (2 * n)) / 100⌉₊ := Nat.ceil_pos.mpr (by positivity)
  have lowered := Nat.ceil_mono fewer
  rw [Nat.ceil_sub_one] at lowered
  unfold ticksLeft
  omega

end Ticks

/-- The iterator visits class `i`, and the percentile is above all counts before it. -/
structure Visits (h : Histogram) (p : ℚ) (iter : Iter) (i : ℕ) : Prop where
  position : At h iter (i + 1)
  value : iter.value = h.config.hdrValueAtIndex i
  inside : i < h.counts.length
  count : iter.count = h.counts[i]
  behind : (h.counts.take i).sum = 0 ∨
    100 * ((h.counts.take i).sum : ℚ) < p * h.totalCount

/-- The class that is visited reaches the percentile. -/
structure Reaches (h : Histogram) (p : ℚ) (iter : Iter) (i : ℕ) : Prop extends
    Visits h p iter i where
  counted : iter.count ≠ 0
  reached : p * h.totalCount ≤ 100 * ((h.counts.take (i + 1)).sum : ℚ)

section Calls

variable {h : Histogram} (offset : h.normalizingIndexOffset = 0)
  (consistent : h.totalCount = h.counts.sum)

include offset consistent

/-- A class that does not reach the percentile is not the last one. -/
theorem Visits.next {p : ℚ} {iter : Iter} {i : ℕ} (visits : Visits h p iter i) (below : p < 100)
    (some_counted : 0 < h.totalCount)
    (short : iter.count ≠ 0 → 100 * ((h.counts.take (i + 1)).sum : ℚ) < p * h.totalCount) :
    ∃ next, h.basicIterNext iter = (true, next) ∧ Visits h p next (i + 1) := by
  have whole : (0 : ℚ) < h.totalCount := Nat.cast_pos.mpr some_counted
  have within : p * h.totalCount < 100 * h.totalCount := mul_lt_mul_of_pos_right below whole
  have behind : (h.counts.take (i + 1)).sum = 0 ∨
      100 * ((h.counts.take (i + 1)).sum : ℚ) < p * h.totalCount := by
    by_cases zero : iter.count = 0
    · have same : (h.counts.take (i + 1)).sum = (h.counts.take i).sum := by
        rw [sum_take_succ visits.inside, ← visits.count, zero, Nat.add_zero]
      rw [same]
      exact visits.behind
    · exact .inr (short zero)
  have some_left : (h.counts.take (i + 1)).sum < h.counts.sum := by
    rw [← consistent]
    rcases behind with zero | less
    · rwa [zero]
    · have := less.trans within
      exact_mod_cast (by linarith : ((h.counts.take (i + 1)).sum : ℚ) < h.totalCount)
  obtain ⟨next, moved, position, value, inside, count⟩ :=
    basicIterNext_at offset consistent visits.position some_left
  exact ⟨next, moved, position, value, inside, count, behind⟩

/-- The loop stops at the first class that reaches the percentile. -/
theorem percentileLoop_at {s : PercentilesIter} {i : ℕ}
    (visits : Visits h s.percentileToIterateTo s.iter i) (below : s.percentileToIterateTo < 100)
    (some_counted : 0 < h.totalCount) :
    ∃ iter j, Reaches h s.percentileToIterateTo iter j ∧
      h.percentileLoop s = { s with
        iter := iter
        percentile := s.percentileToIterateTo
        percentileToIterateTo := s.percentileToIterateTo +
          percentileTick s.ticksPerHalfDistance s.percentileToIterateTo } := by
  have whole : (0 : ℚ) < h.totalCount := Nat.cast_pos.mpr some_counted
  have current : s.percentileToIterateTo ≤ 100 * (s.iter.cumulativeCount : ℚ) / h.totalCount ↔
      s.percentileToIterateTo * h.totalCount ≤ 100 * ((h.counts.take (i + 1)).sum : ℚ) := by
    rw [le_div_iff₀ whole, visits.position.cumulative]
  rw [Histogram.percentileLoop_eq]
  by_cases reached : s.iter.count ≠ 0 ∧
      s.percentileToIterateTo ≤ 100 * (s.iter.cumulativeCount : ℚ) / h.totalCount
  · rw [if_pos reached]
    exact ⟨s.iter, i, ⟨visits, reached.1, current.mp reached.2⟩, rfl⟩
  · obtain ⟨next, moved, visits_next⟩ := visits.next offset consistent below some_counted
      fun counted => not_le.mp fun up => reached ⟨counted, current.mpr up⟩
    rw [if_neg reached, moved]
    exact percentileLoop_at (s := { s with iter := next }) visits_next below some_counted
termination_by h.counts.length - i
decreasing_by
  have := visits.inside
  omega

end Calls

theorem Visits.mono {h : Histogram} {p q : ℚ} {iter : Iter} {i : ℕ} (visits : Visits h p iter i)
    (more : p ≤ q) : Visits h q iter i where
  position := visits.position
  value := visits.value
  inside := visits.inside
  count := visits.count
  behind := visits.behind.imp_right fun less =>
    lt_of_lt_of_le less (mul_le_mul_of_nonneg_right more (Nat.cast_nonneg _))

/-- The iterator after a line that is not the last one. -/
structure Printed (h : Histogram) (s : PercentilesIter) (i : ℕ) : Prop where
  line : Reaches h s.percentile s.iter i
  next : s.percentileToIterateTo =
    s.percentile + percentileTick s.ticksPerHalfDistance s.percentile
  nonneg : 0 ≤ s.percentile
  below : s.percentile < 100
  unseen : s.seenLastValue = false
  ticks : 0 < s.ticksPerHalfDistance

section Lines

variable {h : Histogram} (offset : h.normalizingIndexOffset = 0)
  (consistent : h.totalCount = h.counts.sum) (some_counted : 0 < h.totalCount)

theorem Printed.index {s : PercentilesIter} {i : ℕ} (printed : Printed h s i) :
    s.iter.countsIndex = i := by
  have index := printed.line.position.index
  omega

include offset consistent some_counted

/-- What the loop leaves is a line. -/
theorem printed_loop {s : PercentilesIter} {i : ℕ}
    (visits : Visits h s.percentileToIterateTo s.iter i) (nonneg : 0 ≤ s.percentileToIterateTo)
    (below : s.percentileToIterateTo < 100) (unseen : s.seenLastValue = false)
    (ticks : 0 < s.ticksPerHalfDistance) :
    ∃ j, Printed h (h.percentileLoop s) j ∧
      (h.percentileLoop s).percentile = s.percentileToIterateTo ∧
      (h.percentileLoop s).ticksPerHalfDistance = s.ticksPerHalfDistance := by
  obtain ⟨iter, j, reaches, looped⟩ := percentileLoop_at offset consistent visits below some_counted
  rw [looped]
  exact ⟨j, ⟨reaches, rfl, nonneg, below, unseen, ticks⟩, rfl, rfl⟩

theorem Printed.next_line {s : PercentilesIter} {i : ℕ} (printed : Printed h s i)
    (more : s.iter.cumulativeCount < h.totalCount) :
    ∃ t j, h.percentileIterNext s = (true, t) ∧ Printed h t j ∧
      t.percentile = s.percentileToIterateTo ∧ t.ticksPerHalfDistance = s.ticksPerHalfDistance := by
  have tick := percentileTick_pos printed.ticks s.percentile
  have above : s.percentile ≤ s.percentileToIterateTo := by
    rw [printed.next]
    linarith
  have below : s.percentileToIterateTo < 100 := by
    rw [printed.next]
    exact percentileTick_lt printed.ticks printed.below
  have index := printed.index
  obtain ⟨j, printed_next, percentile, ticks⟩ := printed_loop offset consistent some_counted
    (printed.line.toVisits.mono above) (printed.nonneg.trans above) below printed.unseen
    printed.ticks
  refine ⟨_, j, ?_, printed_next, percentile, ticks⟩
  rw [Histogram.percentileIterNext, printed.line.position.total, if_neg (not_not.mpr more),
    if_neg (by omega)]

end Lines

/-- The nearest rank of a percentile, from one on. -/
def nearestRank (percentile : ℚ) (n : ℕ) : ℕ := max 1 ⌈percentile * n / 100⌉₊

theorem nearestRank_pos (percentile : ℚ) (n : ℕ) : 0 < nearestRank percentile n :=
  Nat.lt_of_lt_of_le Nat.one_pos (le_max_left ..)

/-- A line has the class of the nearest rank of its percentile, and the number of values up to
this class. -/
structure LineOf (c : BucketConfig) (values : List ℕ) (line : PercentileLine) : Prop where
  ranked : ∃ x, values.mergeSort[nearestRank line.percentile values.length - 1]? = some x ∧
    line.value = c.highestEquivalentValue x
  counted : line.totalCount = values.countP (· ≤ line.value)

theorem Reaches.reach_eq {h : Histogram} {p : ℚ} {iter : Iter} {i : ℕ}
    (reaches : Reaches h p iter i) : reach h.counts (nearestRank p h.totalCount) = some i := by
  have counted := reaches.counted
  rw [reaches.count] at counted
  have upTo := sum_take_succ reaches.inside
  rw [reach_eq_some (nearestRank_pos ..), nearestRank]
  constructor
  · rcases reaches.behind with none_behind | behind
    · rw [none_behind]
      exact Nat.lt_of_lt_of_le Nat.one_pos (le_max_left ..)
    · refine lt_max_of_lt_right (Nat.lt_ceil.mpr ?_)
      rw [lt_div_iff₀ (by norm_num)]
      linarith
  · refine max_le (by omega) (Nat.ceil_le.mpr ?_)
    rw [div_le_iff₀ (by norm_num)]
    have := reaches.reached
    linarith

theorem Reaches.line_of {h : Histogram} {values : List ℕ} (holds : Holds h (slotsOf h.config values))
    {s : PercentilesIter} {i : ℕ} (reaches : Reaches h s.percentile s.iter i) :
    LineOf h.config values (h.percentileLine s) := by
  have total : h.totalCount = values.length := by rw [holds.total, slotsOf, List.length_map]
  have index := reaches.position.index
  have visited : (h.percentileLine s).value = h.config.highestEquivalentValue s.iter.value :=
    if_neg (by omega)
  have classed : h.config.scale.position (h.config.hdrValueAtIndex i) = i := by
    rw [hdrValueAtIndex_eq h.valid, Scale.position_lowest]
  constructor
  · have found := reaches.reach_eq
    have least := nearestRank_pos s.percentile h.totalCount
    have most : nearestRank s.percentile h.totalCount ≤ h.totalCount := by
      have reached := ((reach_eq_some least).mp found).2
      have part : (h.counts.take (i + 1)).sum ≤ h.counts.sum :=
        (List.take_sublist ..).sum_le_sum fun _ _ => Nat.zero_le _
      have whole := holds.consistent
      omega
    rw [total] at found least most
    have inside : nearestRank s.percentile values.length - 1 < values.mergeSort.length := by
      rw [List.length_mergeSort]
      omega
    rw [reach_ranked holds least inside] at found
    refine ⟨_, List.getElem?_eq_getElem inside, ?_⟩
    rw [visited, reaches.value]
    apply highestEquivalentValue_congr h.valid
    rw [classed]
    exact (Option.some.inj found).symm
  · have below : i + 1 ≤ h.config.countsLen := by
      have := reaches.inside
      have := h.length_counts
      omega
    have counted : (h.percentileLine s).totalCount = (h.counts.take (i + 1)).sum :=
      reaches.position.cumulative
    rw [counted, visited, reaches.value, holds.counts, sum_take_tally _ below, slotsOf,
      List.countP_map]
    apply List.countP_congr
    intro v _
    have ends := highestEquivalentValue_eq h.valid (h.config.hdrValueAtIndex i)
    rw [classed] at ends
    rw [Function.comp_apply, decide_eq_true_eq, decide_eq_true_eq, Scale.position_lt_iff]
    omega

/-- After the last class there is one line more, of all values. -/
theorem Printed.last_line {h : Histogram} {s : PercentilesIter} {i : ℕ} (printed : Printed h s i)
    (some_counted : 0 < h.totalCount) (all : ¬ s.iter.cumulativeCount < h.totalCount) :
    ∃ t, h.percentileIterNext s = (true, t) ∧ Reaches h t.percentile t.iter i ∧
      t.percentile = 100 ∧ h.percentileIterNext t = (false, t) := by
  have reaches := printed.line
  have whole : (0 : ℚ) < h.totalCount := Nat.cast_pos.mpr some_counted
  have total := reaches.position.total
  have complete : h.totalCount ≤ (h.counts.take (i + 1)).sum := by
    rw [← reaches.position.cumulative]
    exact Nat.le_of_not_lt all
  refine ⟨{ s with seenLastValue := true, percentile := 100 }, ?_, ?_, rfl, ?_⟩
  · rw [Histogram.percentileIterNext, total, if_pos all, if_neg (Bool.eq_false_iff.mp printed.unseen)]
  · refine ⟨reaches.toVisits.mono (le_of_lt printed.below), reaches.counted, ?_⟩
    exact mul_le_mul_of_nonneg_left (Nat.cast_le.mpr complete) (by norm_num)
  · rw [Histogram.percentileIterNext, total, if_pos all, if_pos rfl]

/-- The lines from a state of the iterator on, whatever fuel there is from some amount on. -/
def Prints (h : Histogram) (s : PercentilesIter) (lines : List PercentileLine) : Prop :=
  ∃ enough, ∀ fuel ≥ enough, h.percentilesPrintLoop fuel s = some lines

theorem prints_nil {h : Histogram} {s t : PercentilesIter}
    (stopped : h.percentileIterNext s = (false, t)) : Prints h s [] := by
  refine ⟨1, ?_⟩
  intro fuel enough
  obtain ⟨fuel, rfl⟩ := Nat.exists_eq_add_of_le' enough
  rw [Histogram.percentilesPrintLoop, stopped]

theorem prints_cons {h : Histogram} {s t : PercentilesIter} {lines : List PercentileLine}
    (next : h.percentileIterNext s = (true, t)) (later : Prints h t lines) :
    Prints h s (h.percentileLine t :: lines) := by
  obtain ⟨enough, prints⟩ := later
  refine ⟨enough + 1, ?_⟩
  intro fuel more
  obtain ⟨fuel, rfl⟩ := Nat.exists_eq_add_of_le' (Nat.le_trans (Nat.le_add_left 1 enough) more)
  rw [Histogram.percentilesPrintLoop, next]
  dsimp only
  rw [prints fuel (by omega), Option.map_some]

/-- The percentile that follows a line. -/
def Next (ticks n : ℕ) (line next : PercentileLine) : Prop :=
  if line.totalCount < n then next.percentile = line.percentile + percentileTick ticks line.percentile
  else next.percentile = 100

/-- Lines from a percentile up to 100. -/
structure Table (c : BucketConfig) (ticks : ℕ) (values : List ℕ) (p : ℚ)
    (lines : List PercentileLine) : Prop where
  first : (lines.map PercentileLine.percentile).head? = some p
  each : ∀ line ∈ lines, LineOf c values line
  sorted : (lines.map PercentileLine.percentile).Pairwise (· < ·)
  steps : lines.IsChain (Next ticks values.length)
  last : (lines.map PercentileLine.percentile).getLast? = some 100

theorem Table.cons {c : BucketConfig} {ticks : ℕ} {values : List ℕ} {line next : PercentileLine}
    {lines : List PercentileLine} (later : Table c ticks values next.percentile (next :: lines))
    (first : LineOf c values line) (step : Next ticks values.length line next)
    (less : line.percentile < next.percentile) :
    Table c ticks values line.percentile (line :: next :: lines) where
  first := rfl
  each := List.forall_mem_cons.mpr ⟨first, later.each⟩
  sorted := by
    have sorted := later.sorted
    rw [List.map_cons] at sorted
    rw [List.map_cons, List.map_cons, List.pairwise_cons]
    refine ⟨List.forall_mem_cons.mpr ⟨less, fun q member => less.trans ?_⟩, sorted⟩
    exact (List.pairwise_cons.mp sorted).1 q member
  steps := List.isChain_cons_cons.mpr ⟨step, later.steps⟩
  last := by rw [List.map_cons, List.getLast?_cons, later.last, Option.getD_some]

theorem table_singleton {c : BucketConfig} (ticks : ℕ) {values : List ℕ} {line : PercentileLine}
    (only : LineOf c values line) (hundred : line.percentile = 100) :
    Table c ticks values line.percentile [line] where
  first := rfl
  each := List.forall_mem_singleton.mpr only
  sorted := List.pairwise_singleton ..
  steps := List.isChain_singleton _
  last := congrArg some hundred

/-- The calls left: the ticks, or the last line. -/
def callsLeft (h : Histogram) (s : PercentilesIter) : ℕ :=
  if s.iter.cumulativeCount < h.totalCount then
    ticksLeft s.ticksPerHalfDistance h.totalCount s.percentileToIterateTo + 1
  else 0

theorem Printed.callsLeft_lt {h : Histogram} {s t : PercentilesIter} {j : ℕ}
    (printed : Printed h t j) (percentile : t.percentile = s.percentileToIterateTo)
    (ticks : t.ticksPerHalfDistance = s.ticksPerHalfDistance)
    (more : s.iter.cumulativeCount < h.totalCount) : callsLeft h t < callsLeft h s := by
  rw [callsLeft, callsLeft, if_pos more]
  split
  next short =>
    have reached := printed.line.reached
    have counted : ((h.counts.take (j + 1)).sum : ℚ) ≤ h.totalCount - 1 := by
      rw [printed.line.position.cumulative] at short
      rw [le_sub_iff_add_le]
      exact_mod_cast short
    have fewer := ticksLeft_lt printed.ticks printed.nonneg printed.below
      (Nat.zero_lt_of_lt more) (by linarith)
    rw [printed.next, ← percentile, ← ticks]
    omega
  next _ => exact Nat.succ_pos _

theorem Printed.prints {h : Histogram} {values : List ℕ} (holds : Holds h (slotsOf h.config values))
    (some_counted : 0 < h.totalCount) {s : PercentilesIter} {i : ℕ} (printed : Printed h s i) :
    ∃ lines, Prints h s lines ∧ Table h.config s.ticksPerHalfDistance values s.percentile
      (h.percentileLine s :: lines) := by
  have total : h.totalCount = values.length := by rw [holds.total, slotsOf, List.length_map]
  induction left : callsLeft h s using Nat.strong_induction_on generalizing s i with
  | _ left ih =>
    have this_line := printed.line.line_of holds
    by_cases more : s.iter.cumulativeCount < h.totalCount
    · obtain ⟨t, j, next, printed_next, percentile, ticks⟩ :=
        printed.next_line holds.offset holds.consistent some_counted more
      have less := printed_next.callsLeft_lt percentile ticks more
      obtain ⟨lines, prints, table⟩ := ih _ (left ▸ less) printed_next rfl
      have tick := percentileTick_pos printed.ticks s.percentile
      have step : t.percentile =
          s.percentile + percentileTick s.ticksPerHalfDistance s.percentile :=
        percentile.trans printed.next
      rw [ticks] at table
      refine ⟨_, prints_cons next prints, table.cons this_line ?_ ?_⟩
      · rw [Next, if_pos (total ▸ more)]
        exact step
      · have above : s.percentile < t.percentile := by linarith
        exact above
    · obtain ⟨t, next, reaches, hundred, stopped⟩ := printed.last_line some_counted more
      refine ⟨_, prints_cons next (prints_nil stopped),
        (table_singleton _ (reaches.line_of holds) hundred).cons this_line ?_ ?_⟩
      · rw [Next, if_neg (total ▸ more)]
        exact hundred
      · have below : s.percentile < t.percentile := hundred ▸ printed.below
        exact below

end YcsbCloud.Guarantees.HdrPercentileLines
