import YcsbCloud.Guarantees.HdrRecording
import YcsbCloud.Source.HdrIterator

/-!
# Where the iterators stop

An iterator that is to visit an index next has summed the counts before it. The iterator
over all values visits every index; the one over recorded values visits the indices whose
counts are not zero, and ends with the last of them.
-/
namespace YcsbCloud.Guarantees.HdrIterator
open Library.OrderStatistics Source.HdrHistogram HdrRecording

/-- The iterator is to visit index `i` next. -/
structure At (source : Histogram) (iter : Iter) (i : ℕ) : Prop where
  index : iter.countsIndex + 1 = i
  total : iter.totalCount = source.totalCount
  cumulative : iter.cumulativeCount = (source.counts.take i).sum

theorem at_hdrIterInit (source : Histogram) : At source source.hdrIterInit 0 := ⟨rfl, rfl, rfl⟩

theorem sum_take_succ {counts : List ℕ} {i : ℕ} (inside : i < counts.length) :
    (counts.take (i + 1)).sum = (counts.take i).sum + counts[i] := by
  rw [List.take_succ_eq_append_getElem inside, List.sum_append, List.sum_singleton]

theorem moveNext_at {source : Histogram} (offset : source.normalizingIndexOffset = 0) {iter : Iter}
    {i : ℕ} (position : At source iter i) (inside : i < source.counts.length) :
    ∃ next, source.moveNext iter = (true, next) ∧ At source next (i + 1) ∧
      next.count = source.counts[i] ∧ next.value = source.config.hdrValueAtIndex i := by
  have bound : iter.countsIndex + 1 < source.config.countsLen := by
    rw [position.index, ← source.length_counts]
    exact Int.ofNat_lt.mpr inside
  have counted : source.countsGetNormalised (iter.countsIndex + 1) = source.counts[i] := by
    rw [position.index, Histogram.countsGetNormalised, Histogram.normalizeIndex, if_pos offset,
      Histogram.countsGetDirect, Int.toNat_natCast, List.getD_eq_getElem _ _ inside]
  unfold Histogram.moveNext
  dsimp only
  rw [if_pos bound]
  refine ⟨_, rfl, ⟨?_, position.total, ?_⟩, counted, ?_⟩
  · dsimp only
    rw [position.index]
    rfl
  · dsimp only
    rw [counted, position.cumulative, sum_take_succ inside]
  · dsimp only
    rw [position.index, Int.toNat_natCast]

theorem moveNext_end {source : Histogram} {iter : Iter} {i : ℕ} (position : At source iter i)
    (outside : source.counts.length ≤ i) : (source.moveNext iter).1 = false := by
  have bound : ¬ iter.countsIndex + 1 < source.config.countsLen := by
    rw [position.index, ← source.length_counts]
    omega
  unfold Histogram.moveNext
  dsimp only
  rw [if_neg bound]

/-- While counts are left the basic iterator visits the next index. -/
theorem basicIterNext_at {source : Histogram} (offset : source.normalizingIndexOffset = 0)
    (consistent : source.totalCount = source.counts.sum) {iter : Iter} {i : ℕ}
    (position : At source iter i) (some_left : (source.counts.take i).sum < source.counts.sum) :
    ∃ next, source.basicIterNext iter = (true, next) ∧ At source next (i + 1) ∧
      next.value = source.config.hdrValueAtIndex i ∧
      ∃ inside : i < source.counts.length, next.count = source.counts[i] := by
  have inside : i < source.counts.length := by
    by_contra outside
    rw [List.take_of_length_le (Nat.le_of_not_lt outside)] at some_left
    exact Nat.lt_irrefl _ some_left
  obtain ⟨next, moved, nextAt, count, value⟩ := moveNext_at offset position inside
  refine ⟨next, ?_, nextAt, value, inside, count⟩
  rw [Histogram.basicIterNext, if_neg, moved]
  rw [position.cumulative, position.total, ← source.length_counts]
  have := position.index
  omega

/-- The classes that are counted, from an index on. -/
def ahead (source : Histogram) (i : ℕ) : List (ℕ × ℕ) := entries (source.counts.drop i) i

theorem ahead_step {source : Histogram} {i : ℕ} (inside : i < source.counts.length) :
    ahead source i = if source.counts[i] = 0 then ahead source (i + 1)
      else (source.counts[i], i) :: ahead source (i + 1) := by
  rw [ahead, List.drop_eq_getElem_cons inside, entries_cons, ahead]

/-- The iterator over recorded values stops exactly at the classes that are counted. While
counts are left it never passes the last index, where it would report a count again. -/
theorem recordedIterNext_at {source : Histogram} (offset : source.normalizingIndexOffset = 0)
    (consistent : source.totalCount = source.counts.sum) {iter : Iter} {i : ℕ}
    (position : At source iter i) :
    match ahead source i with
    | [] => (source.recordedIterNext iter).1 = false
    | entry :: rest => ∃ next, source.recordedIterNext iter = (true, next) ∧
        At source next (entry.2 + 1) ∧ next.count = entry.1 ∧
        next.value = source.config.hdrValueAtIndex entry.2 ∧ rest = ahead source (entry.2 + 1) := by
  have parts : (source.counts.take i).sum + (source.counts.drop i).sum = source.counts.sum :=
    List.sum_take_add_sum_drop ..
  by_cases done : (source.counts.drop i).sum = 0
  · rw [ahead, entries_eq_nil done]
    dsimp only
    rw [Histogram.recordedIterNext_eq, Histogram.basicIterNext, if_pos]
    rw [position.cumulative, position.total]
    omega
  · obtain ⟨next, stepped, nextAt, value, inside, count⟩ :=
      basicIterNext_at offset consistent position (by omega)
    rw [Histogram.recordedIterNext_eq, stepped]
    dsimp only
    rw [ahead_step inside, count]
    by_cases zero : source.counts[i] = 0
    · rw [if_pos zero, if_neg (not_not.mpr zero)]
      exact recordedIterNext_at offset consistent nextAt
    · rw [if_neg zero, if_pos zero]
      exact ⟨next, rfl, nextAt, count, value, rfl⟩
termination_by source.counts.length - i

end YcsbCloud.Guarantees.HdrIterator
