import YcsbCloud.Library.Machine
import YcsbCloud.Source.DelegateClient

/-!
# Progress lines of `DelegateClient`

The block at the head of the loop in `ycsbc.cc`, with `next_report_` as the 32-bit
`int` it is there. It is the only part of the loop that touches `next_report_`.
-/
namespace YcsbCloud.Source.ProgressReport
open Library.Machine DelegateClient

/-- The largest `int`. -/
def kIntMax : Nat := 2147483647

/-- `if (i >= next_report_)`, with the number in the progress line. There is no result
if the addition to `next_report_` overflows. -/
def reportBlock : Step Nat Nat (Option Nat) := fun nextReport i =>
  if nextReport ≤ i then
    if nextReportAfter nextReport ≤ kIntMax then some (nextReportAfter nextReport, some i)
    else none
  else some (nextReport, none)

/-- Without an overflow the loop goes on as it does with an unbounded `next_report_`. -/
theorem delegateClient_reports {wl : CoreWorkload} {ranks : Ranks} {isLoading : Bool}
    {numOps : Nat} {input : Input} {s : Shared} {l : Thread} {next : Nat} {line : Option Nat}
    (here : l.position = .loopTest) (more : l.i < numOps)
    (reported : reportBlock l.nextReport l.i = some (next, line)) :
    delegateClient wl ranks isLoading numOps input s l = some (s, { l with
      nextReport := next, position := if isLoading then .sequenceKey else .operation }) := by
  have advanced : next = if l.nextReport ≤ l.i then nextReportAfter l.nextReport
      else l.nextReport := by
    unfold reportBlock at reported
    grind
  rw [delegateClient, here]
  dsimp only
  rw [if_pos more, advanced]

end YcsbCloud.Source.ProgressReport
