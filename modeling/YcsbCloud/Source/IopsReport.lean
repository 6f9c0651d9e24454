import Mathlib.Data.Fintype.Defs
import YcsbCloud.Library.Interleaving

/-!
# The one-second IOPS report

The part of `DelegateClient` that touches `RocksDBCloud::qps`. A transaction ends
with `RecordTime`, which counts it; client 0 then looks at the clock and now and
then calls `latency_hiccup`, which prints the count and resets it. Each access to
the atomic `qps` is one step; the histograms, and the `iops` that
`latency_hiccup` takes and does not use, are left out.
-/
namespace YcsbCloud.Source.IopsReport
open Library.Interleaving

/-- The object behind `db`: its `qps`, and, for the record, the IOPS values printed
so far and the number of `qps++` steps. -/
structure Shared where
  qps : Int64
  printed : List Int64
  increments : Nat

/-- `RocksDBCloud::RocksDBCloud` initialises `noResult` only: `qps` keeps whatever
the memory held. -/
def constructed (qps : Int64) : Shared := ⟨qps, [], 0⟩

/-- `qps++`, which wraps around. -/
def Shared.recordTime (s : Shared) : Shared :=
  { s with qps := s.qps + 1, increments := s.increments + 1 }

/-- The `fprintf` of `latency_hiccup`, with `qps.load()`. -/
def Shared.hiccupLoad (s : Shared) : Shared := { s with printed := s.printed ++ [s.qps] }

/-- `qps.store(0)`. -/
def Shared.hiccupStore (s : Shared) : Shared := { s with qps := 0 }

/-- Where a client stands in its loop; the last two are inside `latency_hiccup`. -/
inductive Position where
  | loopTest
  | recordTime
  | clock
  | done
  | hiccupLoad
  | hiccupStore
  deriving DecidableEq

/-- The parameter `num` of `DelegateClient` and its `i`. -/
structure Thread where
  num : Nat
  position : Position
  i : Nat

def Thread.at (l : Thread) (position : Position) : Thread := { l with position := position }

/-- The end of the loop's body. -/
def Thread.nextIteration (l : Thread) : Thread := { l with position := .loopTest, i := l.i + 1 }

/-- One step of `DelegateClient`. The input is the value of `tiktoks` at the test:
the other clients write that variable too. -/
def delegateClient (isLoading : Bool) (numOps : Nat) : Local Shared Thread Nat := fun tiktoks s l =>
  match l.position with
  | .loopTest =>
    if l.i < numOps then
      if isLoading then some (s, l.nextIteration) else some (s, l.at .recordTime)
    else some (s, l.at .done)
  | .recordTime => some (s.recordTime, l.at .clock)
  | .clock =>
    if 1000000 ≤ tiktoks ∧ l.num = 0 then some (s, l.at .hiccupLoad)
    else some (s, l.nextIteration)
  | .hiccupLoad => some (s.hiccupLoad, l.at .hiccupStore)
  | .hiccupStore => some (s.hiccupStore, l.nextIteration)
  | .done => none

/-- The clients that `main` starts, numbered from zero, on an object as its
constructor leaves it. -/
def launch (qps : Int64) (numThreads : Nat) : System (Fin numThreads) Shared Thread where
  shared := constructed qps
  threads := fun i => ⟨i, .loopTest, 0⟩

/-- The machine of `numThreads` clients. -/
def clients (isLoading : Bool) (numOps numThreads : Nat) :=
  interleave (ι := Fin numThreads) (delegateClient isLoading numOps)

/-- The moves of a client: one for each access to `qps`, and the local ones. -/
inductive Moves (s : Shared) (l : Thread) : Shared → Thread → Prop where
  | own (position : Position) (i : Nat) (here : l.position = .loopTest ∨ l.position = .clock)
      (next : position ≠ .hiccupStore) (client : position = .hiccupLoad → l.num = 0) :
    Moves s l s ⟨l.num, position, i⟩
  | recordTime (here : l.position = .recordTime) : Moves s l s.recordTime (l.at .clock)
  | hiccupLoad (here : l.position = .hiccupLoad) : Moves s l s.hiccupLoad (l.at .hiccupStore)
  | hiccupStore (here : l.position = .hiccupStore) : Moves s l s.hiccupStore l.nextIteration

/-- Every step is one of the moves. -/
theorem delegateClient_moves {isLoading : Bool} {numOps tiktoks : Nat} {s s' : Shared}
    {l l' : Thread} (moved : delegateClient isLoading numOps tiktoks s l = some (s', l')) :
    Moves s l s' l' := by
  unfold delegateClient at moved
  split at moved
  next here =>
    split at moved
    · split at moved <;> cases moved
      · exact .own _ _ (.inl here) (by decide) (fun inside => by cases inside)
      · exact .own _ _ (.inl here) (by decide) (fun inside => by cases inside)
    · cases moved
      exact .own _ _ (.inl here) (by decide) (fun inside => by cases inside)
  next here =>
    cases moved
    exact .recordTime here
  next here =>
    split at moved
    next due =>
      cases moved
      exact .own _ _ (.inr here) (by decide) (fun _ => due.2)
    next early =>
      cases moved
      exact .own _ _ (.inr here) (by decide) (fun inside => by cases inside)
  next here =>
    cases moved
    exact .hiccupLoad here
  next here =>
    cases moved
    exact .hiccupStore here
  · cases moved

end YcsbCloud.Source.IopsReport
