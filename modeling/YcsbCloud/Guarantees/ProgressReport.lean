import Mathlib.Data.List.Range
import YcsbCloud.Source.ProgressReport

/-!
# The range of `next_report_`

From 500000 on the thresholds are the multiples of 100000, and the last one that an
`int` can hold is 2147400000. The loop is sound as long as it does not come to that
index, at which `next_report_` overflows.
-/
namespace YcsbCloud.Guarantees.ProgressReport
open Library.Machine Source.DelegateClient Source.ProgressReport

/-- The values of `next_report_`, one after the other. -/
def threshold : Nat → Nat
  | 0 => 0
  | k + 1 => nextReportAfter (threshold k)

/-- The iteration `i` does not overflow, leaves `next_report_` above `i`, and prints
nothing but its own number at a threshold. -/
def Reported (nextReport i : Nat) : Prop :=
  ∃ next line, reportBlock nextReport i = some (next, line) ∧ i < next ∧
    ∀ shown ∈ line, shown = i ∧ ∃ k, i = threshold k

/-- Every iteration of the loop of `DelegateClient` is sound. -/
def AlwaysReported (numOps : Nat) : Prop := Along reportBlock Reported 0 (List.range numOps)

/-- The last threshold that is an `int`. -/
def kLastThreshold : Nat := 2147400000

/-- The step from a threshold to the next one. -/
def stride (n : Nat) : Nat :=
  if n < 1000 then 100
  else if n < 5000 then 500
  else if n < 10000 then 1000
  else if n < 50000 then 5000
  else if n < 100000 then 10000
  else if n < 500000 then 50000
  else 100000

theorem nextReportAfter_eq (n : Nat) : nextReportAfter n = n + stride n := by
  unfold nextReportAfter stride
  split_ifs <;> rfl

theorem lt_nextReportAfter (n : Nat) : n < nextReportAfter n := by
  rw [nextReportAfter_eq, stride]
  split_ifs <;> omega

/-- Every piece of the schedule starts at a multiple of its step. -/
theorem stride_dvd_next {n : Nat} (scheduled : stride n ∣ n) :
    stride (nextReportAfter n) ∣ nextReportAfter n := by
  rw [nextReportAfter_eq]
  unfold stride at *
  split_ifs at scheduled
  all_goals
    simp only [*, if_true, if_false]
    split_ifs <;> omega

/-- A threshold below the last one is followed by one that is no higher. -/
theorem next_le_last {n : Nat} (scheduled : stride n ∣ n) (below : n < kLastThreshold) :
    nextReportAfter n ≤ kLastThreshold := by
  rw [nextReportAfter_eq]
  unfold stride kLastThreshold at *
  split_ifs at * <;> omega

/-- What holds of `next_report_` before the iteration `i`. -/
structure Pending (nextReport i : Nat) : Prop where
  reached : i ≤ nextReport
  within : nextReport ≤ kLastThreshold
  scheduled : stride nextReport ∣ nextReport
  threshold : ∃ k, nextReport = threshold k

theorem pending_start : Pending 0 0 where
  reached := le_refl 0
  within := Nat.zero_le _
  scheduled := Nat.dvd_zero _
  threshold := ⟨0, rfl⟩

/-- Below the last threshold an iteration is sound and leaves the loop ready for the next. -/
theorem iteration_sound {nextReport i : Nat} (pending : Pending nextReport i)
    (below : i < kLastThreshold) :
    Reported nextReport i ∧
      ∃ next line, reportBlock nextReport i = some (next, line) ∧ Pending next (i + 1) := by
  obtain ⟨k, rank⟩ := pending.threshold
  rcases pending.reached.lt_or_eq with early | due
  · have quiet : reportBlock nextReport i = some (nextReport, none) := if_neg early.not_ge
    refine ⟨⟨nextReport, none, quiet, early, ?_⟩, nextReport, none, quiet, ?_⟩
    · intro shown printed
      cases printed
    · exact ⟨early, pending.within, pending.scheduled, k, rank⟩
  · subst due
    have within := next_le_last pending.scheduled below
    have fits : nextReportAfter i ≤ kIntMax := within.trans (by decide)
    have advanced : reportBlock i i = some (nextReportAfter i, some i) := by
      rw [reportBlock, if_pos (le_refl i), if_pos fits]
    have above := lt_nextReportAfter i
    refine ⟨⟨_, _, advanced, above, ?_⟩, _, _, advanced, ?_⟩
    · intro shown printed
      exact ⟨(Option.mem_some_iff.mp printed).symm, k, rank⟩
    · exact ⟨above, within, stride_dvd_next pending.scheduled, k + 1, by rw [rank, threshold]⟩

/-- At the last threshold the addition overflows. -/
theorem last_overflows : reportBlock kLastThreshold kLastThreshold = none := by decide

theorem along_iff {nextReport i : Nat} (pending : Pending nextReport i) (remaining : Nat) :
    Along reportBlock Reported nextReport (List.range' i remaining) ↔
      i + remaining ≤ kLastThreshold := by
  induction remaining generalizing nextReport i with
  | zero => exact iff_of_true trivial (pending.reached.trans pending.within)
  | succ remaining ih =>
    rw [List.range'_succ]
    rcases (pending.reached.trans pending.within).lt_or_eq with below | last
    · obtain ⟨sound, next, line, moved, ready⟩ := iteration_sound pending below
      rw [along_cons moved, ih ready, and_iff_right sound]
      omega
    · subst last
      have due : nextReport = kLastThreshold := le_antisymm pending.within pending.reached
      refine iff_of_false ?_ (by omega)
      rintro ⟨⟨next, line, moved, _⟩, _⟩
      rw [due, last_overflows] at moved
      cases moved

/-- The progress reports are sound exactly if the loop stops before the last threshold. -/
theorem always_reported_iff (numOps : Nat) : AlwaysReported numOps ↔ numOps ≤ 2147400000 := by
  rw [AlwaysReported, List.range_eq_range', along_iff pending_start, Nat.zero_add]
  rfl

/-- As many operations as an `int` can count. -/
theorem most_operations_overflow :
    reportBlock 2147400000 2147400000 = none ∧ ¬ AlwaysReported 2147483647 := by
  refine ⟨last_overflows, ?_⟩
  rw [AlwaysReported, List.range_eq_range', along_iff pending_start]
  decide

end YcsbCloud.Guarantees.ProgressReport
