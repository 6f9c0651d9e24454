import YcsbCloud.Library.Interleaving
import YcsbCloud.Source.Zipfian

/-!
# `core/skewed_latest_generator.h` over exact reals

The generator, and the loop of `NextTransactionKey` over it, as the steps of any
number of threads that share one counter. A step is one atomic access: a load of
the counter, a draw under the mutex of the zipfian generator, the store of `last_`.
Between any two of them the counter may be moved.
-/
namespace YcsbCloud.Source
open Library.Interleaving

/-- The members besides the reference to the counter. -/
structure SkewedLatestState where
  zipfian : ZipfianState
  last : Nat

namespace SkewedLatestState

/-- The constructor, on the draw that the zipfian constructor takes and its own. -/
noncomputable def construct (basis : CounterGenerator) (first second : ℝ) :
    Option SkewedLatestState := do
  let zipfian ← ZipfianState.construct 0 (subU64 basis.last 1) kZipfianConst first
  let drawn ← zipfian.next basis.last second
  some ⟨drawn.2, subU64 basis.last drawn.1⟩

/-- `insert_key_sequence_` and the key chooser that refers to it. -/
structure Shared where
  insertKeySequence : CounterGenerator
  keyChooser : SkewedLatestState

/-- Where a thread stands in `NextTransactionKey`: before the chooser loads the
counter, before the draw, before the subtraction, at the loop's test, after it. -/
inductive Position where
  | next
  | loaded (max : Nat)
  | drew (max value : Nat)
  | test (max keyNum : Nat)
  | returned (keyNum : Nat)

/-- The counter is moved, or a thread takes its next step with a draw at hand. -/
inductive Event where
  | counterNext
  | counterSet (start : Nat)
  | advance (u : ℝ)

noncomputable def nextTransactionKey : Local Shared Position Event := fun event s l =>
  match event with
  | .counterNext => some ({ s with insertKeySequence := s.insertKeySequence.next.2 }, l)
  | .counterSet start =>
    if start < 2 ^ 64 then some ({ s with insertKeySequence := s.insertKeySequence.set start }, l)
    else none
  | .advance u =>
    match l with
    | .next => some (s, .loaded s.insertKeySequence.last)
    | .loaded max =>
      if 0 ≤ u ∧ u < 1 then do
        let drawn ← s.keyChooser.zipfian.next max u
        some ({ s with keyChooser := { s.keyChooser with zipfian := drawn.2 } }, .drew max drawn.1)
      else none
    | .drew max value =>
      some ({ s with keyChooser := { s.keyChooser with last := subU64 max value } },
        .test max (subU64 max value))
    | .test _ keyNum =>
      if keyNum > s.insertKeySequence.last then some (s, .next) else some (s, .returned keyNum)
    | .returned _ => some (s, .next)

/-- Threads about to choose a key. -/
def launch {ι : Type} (basis : CounterGenerator) (keyChooser : SkewedLatestState) :
    System ι Shared Position where
  shared := ⟨basis, keyChooser⟩
  threads := fun _ => .next

/-- The moves, one constructor for each step; a move of the counter leaves the
threads where they are. -/
inductive Moves (s : Shared) : Position → Shared → Position → Prop where
  | counter (l : Position) (insertKeySequence : CounterGenerator) :
    Moves s l { s with insertKeySequence := insertKeySequence } l
  | load : Moves s .next s (.loaded s.insertKeySequence.last)
  | draw (max value : Nat) (u : ℝ) (zipfian : ZipfianState) (range : 0 ≤ u ∧ u < 1)
      (drawn : s.keyChooser.zipfian.next max u = some (value, zipfian)) :
    Moves s (.loaded max) { s with keyChooser := { s.keyChooser with zipfian := zipfian } }
      (.drew max value)
  | subtract (max value keyNum : Nat) (difference : keyNum = subU64 max value) :
    Moves s (.drew max value) { s with keyChooser := { s.keyChooser with last := keyNum } }
      (.test max keyNum)
  | reject (max keyNum : Nat) : Moves s (.test max keyNum) s .next
  | accept (max keyNum : Nat) (eligible : keyNum ≤ s.insertKeySequence.last) :
    Moves s (.test max keyNum) s (.returned keyNum)
  | again (keyNum : Nat) : Moves s (.returned keyNum) s .next

theorem nextTransactionKey_moves {event : Event} {s s' : Shared} {l l' : Position}
    (moved : nextTransactionKey event s l = some (s', l')) : Moves s l s' l' := by
  cases event with
  | counterNext =>
    cases moved
    exact .counter l _
  | counterSet start =>
    dsimp only [nextTransactionKey] at moved
    split at moved
    · cases moved
      exact .counter l _
    · cases moved
  | advance u =>
    cases l with
    | next =>
      cases moved
      exact .load
    | loaded max =>
      dsimp only [nextTransactionKey] at moved
      split at moved
      next range =>
        obtain ⟨drawn, took, returned⟩ := Option.bind_eq_some_iff.mp moved
        cases returned
        exact .draw max drawn.1 u drawn.2 range took
      · cases moved
    | drew max value =>
      cases moved
      exact .subtract max value _ rfl
    | test max keyNum =>
      dsimp only [nextTransactionKey] at moved
      split at moved
      · cases moved
        exact .reject max keyNum
      next eligible =>
        cases moved
        exact .accept max keyNum (Nat.le_of_not_lt eligible)
    | returned keyNum =>
      cases moved
      exact .again keyNum

end SkewedLatestState

end YcsbCloud.Source
