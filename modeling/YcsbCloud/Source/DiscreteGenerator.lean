import YcsbCloud.Library.InverseTransform

/-!
# `core/discrete_generator.h`

A choice among weighted values, with weights and draws as exact rationals. The loop
of `Next` keeps what is left of the draw after each share.
-/
namespace YcsbCloud.Source
open Library

/-- `last_` has no value before the first `AddValue`. -/
structure DiscreteGenerator (Value : Type) where
  values : List (Value × ℚ)
  sum : ℚ
  last : Option Value
  deriving DecidableEq, Repr

namespace DiscreteGenerator

variable {Value : Type}

/-- The constructor. -/
def empty : DiscreteGenerator Value := ⟨[], 0, none⟩

def addValue (g : DiscreteGenerator Value) (value : Value) (weight : ℚ) :
    DiscreteGenerator Value where
  values := g.values ++ [(value, weight)]
  sum := g.sum + weight
  last := if g.values.isEmpty then some value else g.last

/-- The loop of `Next` over the values that are left; its end is the assertion. -/
def nextLoop (sum : ℚ) : List (Value × ℚ) → ℚ → Option Value
  | [], _ => none
  | p :: rest, chooser =>
    if chooser < p.2 / sum then some p.1 else nextLoop sum rest (chooser - p.2 / sum)

/-- `Next` on a draw of the random generator: the value and the generator after. -/
def next (g : DiscreteGenerator Value) (chooser : ℚ) : Option (Value × DiscreteGenerator Value) :=
  match nextLoop g.sum g.values chooser with
  | none => none
  | some value => some (value, { g with last := some value })

/-- The calls of `AddValue` in order. -/
def addAll (g : DiscreteGenerator Value) (calls : List (Value × ℚ)) : DiscreteGenerator Value :=
  calls.foldl (fun g p => g.addValue p.1 p.2) g

theorem addAll_values (g : DiscreteGenerator Value) (calls : List (Value × ℚ)) :
    (g.addAll calls).values = g.values ++ calls := by
  induction calls generalizing g with
  | nil => simp [addAll]
  | cons p rest ih =>
    rw [addAll, List.foldl_cons, ← addAll, ih, addValue, List.append_assoc, List.singleton_append]

theorem addAll_sum (g : DiscreteGenerator Value) (calls : List (Value × ℚ)) :
    (g.addAll calls).sum = g.sum + (calls.map Prod.snd).sum := by
  induction calls generalizing g with
  | nil => simp [addAll]
  | cons p rest ih =>
    rw [addAll, List.foldl_cons, ← addAll, ih, addValue, List.map_cons, List.sum_cons, add_assoc]

/-- The loop walks the shares of the values. -/
theorem nextLoop_eq (sum : ℚ) (values : List (Value × ℚ)) (chooser : ℚ) :
    nextLoop sum values chooser =
      (InverseTransform.pick (values.map fun p => p.2 / sum) chooser).bind fun i =>
        values[i]?.map Prod.fst := by
  induction values generalizing chooser with
  | nil => rfl
  | cons p rest ih =>
    rw [nextLoop, List.map_cons, InverseTransform.pick]
    split
    · rfl
    · rw [ih, Option.bind_map]
      rfl

end DiscreteGenerator

end YcsbCloud.Source
