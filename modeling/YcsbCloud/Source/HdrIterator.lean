import YcsbCloud.Source.HdrHistogram

/-!
# The iterators of `hdr_histogram.c`

An iterator goes over the counts of a histogram that does not change meanwhile; it is
without the fields that only its users read. `hdr_add`, `hdr_value_at_percentiles` and
`hdr_mean` are loops over iterators. The mean is a quotient of doubles.
-/
namespace YcsbCloud.Source.HdrHistogram
open Library

/-- `struct hdr_iter`. -/
structure Iter where
  countsIndex : ℤ
  totalCount : ℕ
  count : ℕ
  cumulativeCount : ℕ
  value : ℕ
  deriving DecidableEq, Repr

namespace Histogram

variable (h : Histogram)

def hdrIterInit : Iter where
  countsIndex := -1
  totalCount := h.totalCount
  count := 0
  cumulativeCount := 0
  value := 0

/-- `move_next`, which is also the iteration over all values. -/
def moveNext (iter : Iter) : Bool × Iter :=
  let iter : Iter := { iter with countsIndex := iter.countsIndex + 1 }
  if iter.countsIndex < h.config.countsLen then
    let count := h.countsGetNormalised iter.countsIndex
    (true, { iter with
      count := count
      cumulativeCount := iter.cumulativeCount + count
      value := h.config.hdrValueAtIndex iter.countsIndex.toNat })
  else (false, iter)

def basicIterNext (iter : Iter) : Bool × Iter :=
  if ¬ iter.cumulativeCount < iter.totalCount ∨ iter.countsIndex ≥ h.config.countsLen then
    (false, iter)
  else (true, (h.moveNext iter).2)

theorem moveNext_countsIndex (iter : Iter) :
    (h.moveNext iter).2.countsIndex = iter.countsIndex + 1 := by
  unfold moveNext
  dsimp only
  split <;> rfl

theorem moveNext_inside {iter next : Iter} (moved : h.moveNext iter = (true, next)) :
    next.countsIndex = iter.countsIndex + 1 ∧ next.countsIndex < h.config.countsLen := by
  have index := h.moveNext_countsIndex iter
  rw [moved] at index
  refine ⟨index, ?_⟩
  unfold moveNext at moved
  dsimp only at moved
  split at moved
  next inside =>
    rw [index]
    exact inside
  · cases moved

theorem basicIterNext_advances {iter next : Iter} (moved : h.basicIterNext iter = (true, next)) :
    next.countsIndex = iter.countsIndex + 1 ∧ iter.countsIndex < h.config.countsLen := by
  unfold basicIterNext at moved
  split at moved
  · cases moved
  next inside =>
    cases moved
    exact ⟨h.moveNext_countsIndex iter, by omega⟩

/-- `recorded_iter_next`. -/
def recordedIterNext (iter : Iter) : Bool × Iter :=
  match _ : h.basicIterNext iter with
  | (false, next) => (false, next)
  | (true, next) => if next.count ≠ 0 then (true, next) else recordedIterNext next
termination_by (h.config.countsLen - iter.countsIndex).toNat
decreasing_by
  have := h.basicIterNext_advances ‹_›
  omega

theorem recordedIterNext_eq (iter : Iter) :
    h.recordedIterNext iter =
      match h.basicIterNext iter with
      | (false, next) => (false, next)
      | (true, next) => if next.count ≠ 0 then (true, next) else h.recordedIterNext next := by
  rw [recordedIterNext]
  split <;> rename_i next moved <;> rw [moved]

theorem recordedIterNext_advances {iter next : Iter} (moved : h.recordedIterNext iter = (true, next)) :
    iter.countsIndex < next.countsIndex ∧ iter.countsIndex < h.config.countsLen := by
  induction iter using recordedIterNext.induct h with
  | case1 iter stopped refused =>
    rw [recordedIterNext_eq, refused] at moved
    cases moved
  | case2 iter middle stepped counted =>
    have := h.basicIterNext_advances stepped
    rw [recordedIterNext_eq, stepped] at moved
    dsimp only at moved
    rw [if_pos counted] at moved
    cases moved
    omega
  | case3 iter middle stepped uncounted ih =>
    have := h.basicIterNext_advances stepped
    rw [recordedIterNext_eq, stepped] at moved
    dsimp only at moved
    rw [if_neg uncounted] at moved
    have := ih moved
    omega

/-- The loop of `hdr_add`, with the call that records. -/
def addLoop (source : Histogram) (record : Histogram → ℕ → ℕ → Bool × Histogram) (h : Histogram)
    (dropped : ℕ) (iter : Iter) : ℕ × Histogram :=
  match _ : source.recordedIterNext iter with
  | (false, _) => (dropped, h)
  | (true, next) =>
    match record h next.value next.count with
    | (true, h) => addLoop source record h dropped next
    | (false, h) => addLoop source record h (dropped + next.count) next
termination_by (source.config.countsLen - iter.countsIndex).toNat
decreasing_by
  all_goals
    have := source.recordedIterNext_advances ‹_›
    omega

/-- `hdr_add`, of another histogram. -/
def hdrAdd (source : Histogram) : ℕ × Histogram :=
  addLoop source (fun h value count => h.hdrRecordValues value count) h 0 source.hdrIterInit

/-- The inner loop of `hdr_value_at_percentiles`. -/
def fillLoop (highest total : ℕ) (values : List ℤ) (atPos : ℕ) : List ℤ × ℕ :=
  if inside : atPos < values.length then
    if total ≥ values[atPos] then fillLoop highest total (values.set atPos highest) (atPos + 1)
    else (values, atPos)
  else (values, atPos)
termination_by values.length - atPos
decreasing_by
  rw [List.length_set]
  omega

/-- The outer loop of `hdr_value_at_percentiles`. -/
def percentilesLoop (iter : Iter) (total : ℕ) (values : List ℤ) (atPos : ℕ) : List ℤ :=
  match _ : h.moveNext iter with
  | (false, _) => values
  | (true, next) =>
    if atPos < values.length then
      let (values, atPos) :=
        fillLoop (h.config.highestEquivalentValue next.value) (total + next.count) values atPos
      percentilesLoop next (total + next.count) values atPos
    else values
termination_by (h.config.countsLen - iter.countsIndex).toNat
decreasing_by
  have := h.moveNext_inside ‹_›
  omega

def hdrValueAtPercentiles (percentiles : List ℚ) : List ℤ :=
  let values := percentiles.map fun percentile =>
    if countAtPercentile percentile h.totalCount > 1 then countAtPercentile percentile h.totalCount
    else 1
  h.percentilesLoop h.hdrIterInit 0 values 0

/-- What `hdr_mean` comes to when it is not a number between the values. -/
inductive NoMean
  | nan
  | overflow
  deriving DecidableEq, Repr

/-- The loop of `hdr_mean`, whose sum is an `int64_t`. -/
def meanLoop (iter : Iter) (total count : ℕ) : Option ℕ :=
  match _ : h.moveNext iter with
  | (false, _) => some total
  | (true, next) =>
    if count < h.totalCount then
      if 0 ≠ next.count then
        let total := total + next.count * h.config.hdrMedianEquivalentValue next.value
        if INT64_MAX < total then none
        else meanLoop next total (count + next.count)
      else meanLoop next total count
    else some total
termination_by (h.config.countsLen - iter.countsIndex).toNat
decreasing_by
  all_goals
    have := h.moveNext_inside ‹_›
    omega

def hdrMean : Except NoMean ℚ :=
  match h.meanLoop h.hdrIterInit 0 0 with
  | none => .error .overflow
  | some total =>
    if h.totalCount = 0 then .error .nan
    else .ok (Binary64.round (Binary64.round total / Binary64.round h.totalCount))

end Histogram

end YcsbCloud.Source.HdrHistogram
