import Mathlib.Data.Nat.Log
import YcsbCloud.Source.HdrIterator

/-!
# The lines of `hdr_percentiles_print`

The iterator reports a class each time the percentile it iterates to is reached, and halves
its ticks with the distance to 100. Percentiles are exact, and the number of ticks is taken not
to overflow.
-/
namespace YcsbCloud.Source.HdrHistogram

/-- `struct hdr_iter` with its `hdr_iter_percentiles`. -/
structure PercentilesIter where
  iter : Iter
  seenLastValue : Bool
  ticksPerHalfDistance : ℕ
  percentileToIterateTo : ℚ
  percentile : ℚ

/-- What is added to `percentile_to_iterate_to`. -/
def percentileTick (ticksPerHalfDistance : ℕ) (percentileToIterateTo : ℚ) : ℚ :=
  let temp := Nat.log 2 ⌊100 / (100 - percentileToIterateTo)⌋₊ + 1
  let halfDistance := 2 ^ temp
  let percentileReportingTicks := ticksPerHalfDistance * halfDistance
  100 / percentileReportingTicks

/-- A line, but for the scale of the value and the inverted percentile. -/
structure PercentileLine where
  value : ℕ
  percentile : ℚ
  totalCount : ℕ
  deriving DecidableEq, Repr

namespace Histogram

variable (h : Histogram)

/-- The loop of `percentile_iter_next`. -/
def percentileLoop (percentiles : PercentilesIter) : PercentilesIter :=
  let currentPercentile : ℚ := 100 * percentiles.iter.cumulativeCount / h.totalCount
  if percentiles.iter.count ≠ 0 ∧ percentiles.percentileToIterateTo ≤ currentPercentile then
    { percentiles with
      percentile := percentiles.percentileToIterateTo
      percentileToIterateTo := percentiles.percentileToIterateTo +
        percentileTick percentiles.ticksPerHalfDistance percentiles.percentileToIterateTo }
  else
    match _ : h.basicIterNext percentiles.iter with
    | (false, next) => { percentiles with iter := next }
    | (true, next) => percentileLoop { percentiles with iter := next }
termination_by (h.config.countsLen - percentiles.iter.countsIndex).toNat
decreasing_by
  have := h.basicIterNext_advances ‹_›
  omega

theorem percentileLoop_eq (percentiles : PercentilesIter) :
    h.percentileLoop percentiles =
      if percentiles.iter.count ≠ 0 ∧ percentiles.percentileToIterateTo ≤
          100 * (percentiles.iter.cumulativeCount : ℚ) / h.totalCount then
        { percentiles with
          percentile := percentiles.percentileToIterateTo
          percentileToIterateTo := percentiles.percentileToIterateTo +
            percentileTick percentiles.ticksPerHalfDistance percentiles.percentileToIterateTo }
      else
        match h.basicIterNext percentiles.iter with
        | (false, next) => { percentiles with iter := next }
        | (true, next) => h.percentileLoop { percentiles with iter := next } := by
  rw [percentileLoop]
  congr 1
  split <;> rename_i next moved <;> rw [moved]

def percentileIterNext (percentiles : PercentilesIter) : Bool × PercentilesIter :=
  if ¬ percentiles.iter.cumulativeCount < percentiles.iter.totalCount then
    if percentiles.seenLastValue then (false, percentiles)
    else (true, { percentiles with seenLastValue := true, percentile := 100 })
  else if percentiles.iter.countsIndex = -1 then
    match h.basicIterNext percentiles.iter with
    | (false, next) => (false, { percentiles with iter := next })
    | (true, next) => (true, h.percentileLoop { percentiles with iter := next })
  else (true, h.percentileLoop percentiles)

/-- The line at an iterator. `move_next` sets the highest equivalent value with the value. -/
def percentileLine (percentiles : PercentilesIter) : PercentileLine where
  value :=
    if percentiles.iter.countsIndex < 0 then 0
    else h.config.highestEquivalentValue percentiles.iter.value
  percentile := percentiles.percentile
  totalCount := percentiles.iter.cumulativeCount

/-- The loop of `hdr_percentiles_print`, for at most so many calls of the iterator. -/
def percentilesPrintLoop : ℕ → PercentilesIter → Option (List PercentileLine)
  | 0, _ => none
  | fuel + 1, percentiles =>
    match h.percentileIterNext percentiles with
    | (false, _) => some []
    | (true, next) => (percentilesPrintLoop fuel next).map (h.percentileLine next :: ·)

end Histogram

end YcsbCloud.Source.HdrHistogram
