import YcsbCloud.Source.CoreWorkload
import YcsbCloud.Source.DiscreteGenerator

/-!
# The operation chooser and its weights

The loop of `Next` subtracts share after share from the draw. It stops at the value
whose share of the unit interval, laid out in the order of `AddValue`, the draw
falls in. `Init` adds positive weights only, so every operation that it adds has a
share, and an assertion that no value was found is never reached.
-/
namespace YcsbCloud.Guarantees.OperationChooser
open Library Source Source.DiscreteGenerator

variable {Value : Type}

/-- The weights that were added before an index. -/
def weightBefore (calls : List (Value × ℚ)) (i : Nat) : ℚ := ((calls.take i).map Prod.snd).sum

/-- The sum of all weights. -/
def totalWeight (calls : List (Value × ℚ)) : ℚ := (calls.map Prod.snd).sum

/-- A draw lies in the share of the value at an index. -/
def InShare (calls : List (Value × ℚ)) (chooser : ℚ) (i : Nat) : Prop :=
  i < calls.length ∧ weightBefore calls i / totalWeight calls ≤ chooser ∧
    chooser < weightBefore calls (i + 1) / totalWeight calls

theorem weightBefore_eq (calls : List (Value × ℚ)) (i : Nat) :
    weightBefore calls i = InverseTransform.before (calls.map Prod.snd) i := by
  rw [weightBefore, InverseTransform.before, List.map_take]

theorem weights_positive {calls : List (Value × ℚ)} (positive : ∀ p ∈ calls, 0 < p.2) :
    ∀ part ∈ calls.map Prod.snd, 0 < part := by
  intro part member
  obtain ⟨p, inside, rfl⟩ := List.mem_map.mp member
  exact positive p inside

/-- The walk over the shares, for values added to an empty generator. -/
theorem next_share (calls : List (Value × ℚ)) (nonempty : calls ≠ [])
    (positive : ∀ p ∈ calls, 0 < p.2) (chooser : ℚ) (unit : 0 ≤ chooser ∧ chooser < 1) :
    ∃ i, (∀ j, InShare calls chooser j ↔ j = i) ∧
      nextLoop (totalWeight calls) calls chooser = calls[i]?.map Prod.fst := by
  obtain ⟨i, picked, shares⟩ := InverseTransform.pick_share (by simpa using nonempty)
    (weights_positive positive) chooser unit
  refine ⟨i, ?_, ?_⟩
  · intro j
    rw [← shares j, List.length_map, InShare, weightBefore_eq, weightBefore_eq, totalWeight]
  · rw [List.map_map] at picked
    rw [nextLoop_eq, totalWeight]
    exact congrArg (Option.bind · fun i => calls[i]?.map Prod.fst) picked

/-- `Next` is the loop, and a store of what it found. -/
theorem next_addAll (calls : List (Value × ℚ)) (last : Option Value) (chooser : ℚ) :
    next { empty.addAll calls with last := last } chooser =
      (nextLoop (totalWeight calls) calls chooser).map fun value =>
        (value, { empty.addAll calls with last := some value }) := by
  have values : (empty.addAll calls).values = calls := addAll_values empty calls
  have sum : (empty.addAll calls).sum = totalWeight calls :=
    (addAll_sum empty calls).trans (zero_add _)
  simp only [next, values, sum]
  cases nextLoop (totalWeight calls) calls chooser with
  | none => rfl
  | some value => rfl

/-- Exactly one index has the draw in its share; its value is returned and kept in
`last_`, whatever was kept there before. -/
theorem chooses_by_weight (calls : List (Value × ℚ)) (chooser : ℚ) (last : Option Value)
    (nonempty : calls ≠ []) (positive : ∀ p ∈ calls, 0 < p.2)
    (unit : 0 ≤ chooser ∧ chooser < 1) :
    ∃ i value weight, (∀ j, InShare calls chooser j ↔ j = i) ∧ calls[i]? = some (value, weight) ∧
      next { empty.addAll calls with last := last } chooser =
        some (value, { empty.addAll calls with last := some value }) := by
  obtain ⟨i, shares, stopped⟩ := next_share calls nonempty positive chooser unit
  have inside := ((shares i).mpr rfl).1
  have found := List.getElem?_eq_getElem inside
  refine ⟨i, calls[i].1, calls[i].2, shares, found, ?_⟩
  rw [next_addAll, stopped, found]
  rfl

/-- Two values with weights one and three, and a draw on the border of their shares. -/
theorem chooses_by_weight_border :
    ∃ i value weight, (∀ j, InShare [(false, 1), (true, 3)] (1 / 4) j ↔ j = i) ∧
      [((false, 1) : Bool × ℚ), (true, 3)][i]? = some (value, weight) ∧
      next { empty.addAll [(false, 1), (true, 3)] with last := some false } (1 / 4) =
        some (value, { empty.addAll [(false, 1), (true, 3)] with last := some value }) :=
  chooses_by_weight [(false, 1), (true, 3)] (1 / 4) (some false) (List.cons_ne_nil _ _)
    (by decide) (by norm_num)

example : (next (empty.addAll [(false, 1), (true, 3)]) (1 / 4)).map Prod.fst = some true := by
  decide +kernel

/-- The share of a value is not empty: it begins with a draw. -/
theorem share_begins (calls : List (Value × ℚ)) (positive : ∀ p ∈ calls, 0 < p.2) {i : Nat}
    (inside : i < calls.length) :
    (0 ≤ weightBefore calls i / totalWeight calls ∧
      weightBefore calls i / totalWeight calls < 1) ∧
      InShare calls (weightBefore calls i / totalWeight calls) i := by
  have weights := weights_positive positive
  have nonempty : calls.map Prod.snd ≠ [] := by
    rw [ne_eq, List.map_eq_nil_iff]
    exact List.ne_nil_of_length_pos (Nat.zero_lt_of_lt inside)
  have total : 0 < totalWeight calls := List.sum_pos _ weights nonempty
  have nonneg : ∀ part ∈ calls.map Prod.snd, 0 ≤ part := fun part member => (weights part member).le
  have start := InverseTransform.before_le (calls.map Prod.snd) nonneg (Nat.zero_le i)
  have bound : i < (calls.map Prod.snd).length := inside.trans_eq (List.length_map _).symm
  have grows := InverseTransform.before_lt (calls.map Prod.snd) weights bound
  have ends := InverseTransform.before_le (calls.map Prod.snd) nonneg (Nat.succ_le_of_lt bound)
  rw [InverseTransform.before_length] at ends
  simp only [← weightBefore_eq] at start grows ends
  exact ⟨⟨div_nonneg start total.le, (div_lt_one total).mpr (grows.trans_le ends)⟩, inside,
    le_refl _, div_lt_div_of_pos_right grows total⟩

/-- Values are drawn exactly if they were added. -/
theorem drawn_iff (calls : List (Value × ℚ)) (positive : ∀ p ∈ calls, 0 < p.2) (value : Value) :
    (∃ chooser after, (0 ≤ chooser ∧ chooser < 1) ∧
      next (empty.addAll calls) chooser = some (value, after)) ↔ value ∈ calls.map Prod.fst := by
  constructor
  · intro drawn
    obtain ⟨chooser, after, unit, moved⟩ := drawn
    rw [next_addAll calls (empty.addAll calls).last] at moved
    obtain ⟨found, stopped, returned⟩ := Option.map_eq_some_iff.mp moved
    rw [Prod.mk.injEq] at returned
    cases calls with
    | nil => cases stopped
    | cons p rest =>
      obtain ⟨i, _, walked⟩ := next_share (p :: rest) (List.cons_ne_nil _ _) positive chooser unit
      rw [stopped, eq_comm, ← List.getElem?_map] at walked
      rw [← returned.1]
      exact List.mem_of_getElem? walked
  · intro member
    obtain ⟨p, inside, rfl⟩ := List.mem_map.mp member
    obtain ⟨i, bound, rfl⟩ := List.getElem_of_mem inside
    obtain ⟨unit, share⟩ := share_begins calls positive bound
    obtain ⟨j, shares, stopped⟩ := next_share calls (List.ne_nil_of_mem inside) positive _ unit
    rw [← (shares i).mp share, List.getElem?_eq_getElem bound] at stopped
    have moved := next_addAll calls (empty.addAll calls).last
      (weightBefore calls i / totalWeight calls)
    rw [stopped] at moved
    exact ⟨_, _, unit, moved⟩

theorem opChooserOf_positive (p : Config) : ∀ operation ∈ CoreWorkload.opChooserOf p,
    0 < operation.2 := by
  intro operation member
  exact of_decide_eq_true (List.mem_filter.mp member).2

/-- The operations that `DoTransaction` can be given are those that `Init` added. -/
theorem operation_drawn_iff (p : Config) (wl : CoreWorkload)
    (made : CoreWorkload.Initialized p wl) (op : Operation) :
    (∃ chooser after, (0 ≤ chooser ∧ chooser < 1) ∧
      next (empty.addAll wl.opChooser) chooser = some (op, after)) ↔
      op ∈ wl.opChooser.map Prod.fst := by
  rw [made.opChooser]
  exact drawn_iff _ (opChooserOf_positive p) op

end YcsbCloud.Guarantees.OperationChooser
