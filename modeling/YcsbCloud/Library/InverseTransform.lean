import Mathlib.Algebra.BigOperators.Group.Finset.Basic
import Mathlib.Algebra.BigOperators.Group.List.Basic
import Mathlib.Algebra.BigOperators.Ring.List
import Mathlib.Algebra.Order.BigOperators.Group.List
import Mathlib.Algebra.Order.Field.Basic
import Mathlib.Tactic.FieldSimp
import Mathlib.Tactic.Linarith
import Mathlib.Tactic.Ring

/-!
# Sampling by inverting a cumulative distribution

A draw from the unit interval is turned into a value by finding the part of the
interval it falls in. `accumulate` is the loop that sums the parts, `pick` the
loop that walks them and subtracts each from the draw; the last section is the
straight line that stands in for the cumulative distribution of a tail.
-/
namespace YcsbCloud.Library.InverseTransform

section accumulate

variable {M : Type*} [AddCommMonoid M]

/-- Add so many terms, from an index on. -/
def accumulate (term : ℕ → M) : ℕ → ℕ → M → M
  | 0, _, total => total
  | rounds + 1, i, total => accumulate term rounds (i + 1) (total + term i)

theorem accumulate_eq_sum (term : ℕ → M) (rounds i : ℕ) (total : M) :
    accumulate term rounds i total = total + ∑ j ∈ Finset.range rounds, term (i + j) := by
  induction rounds generalizing i total with
  | zero => simp [accumulate]
  | succ rounds ih =>
    rw [accumulate, ih, Finset.sum_range_succ', add_assoc, add_comm (term i)]
    simp only [Nat.add_assoc, Nat.add_comm 1, Nat.add_zero]

/-- A loop resumed where another stopped does the work of one loop. -/
theorem accumulate_resume (term : ℕ → M) (first second i : ℕ) (total : M) :
    accumulate term second (i + first) (accumulate term first i total) =
      accumulate term (first + second) i total := by
  simp only [accumulate_eq_sum, Finset.sum_range_add, add_assoc]

end accumulate

section pick

variable {K : Type*} [AddCommGroup K]

/-- The sum of the parts before an index. -/
def before (parts : List K) (i : ℕ) : K := (parts.take i).sum

@[simp] theorem before_zero (parts : List K) : before parts 0 = 0 := rfl

theorem before_length (parts : List K) : before parts parts.length = parts.sum := by
  rw [before, List.take_length]

theorem before_cons_succ (part : K) (rest : List K) (i : ℕ) :
    before (part :: rest) (i + 1) = part + before rest i := by
  simp [before]

variable [LinearOrder K]

/-- The index of the part that the draw falls in. -/
def pick : List K → K → Option ℕ
  | [], _ => none
  | part :: rest, draw => if draw < part then some 0 else (pick rest (draw - part)).map (· + 1)

variable [IsOrderedAddMonoid K]

theorem before_le (parts : List K) (nonneg : ∀ part ∈ parts, 0 ≤ part) {i j : ℕ} (ordered : i ≤ j) :
    before parts i ≤ before parts j := by
  induction parts generalizing i j with
  | nil => simp [before]
  | cons part rest ih =>
    rw [List.forall_mem_cons] at nonneg
    cases i with
    | zero =>
      cases j with
      | zero => exact le_refl _
      | succ j =>
        rw [before_cons_succ, before_zero]
        exact add_nonneg nonneg.1 (ih nonneg.2 (Nat.zero_le j))
    | succ i =>
      cases j with
      | zero => omega
      | succ j =>
        rw [before_cons_succ, before_cons_succ]
        exact add_le_add (le_refl part) (ih nonneg.2 (by omega))

theorem before_lt (parts : List K) (positive : ∀ part ∈ parts, 0 < part) {i : ℕ}
    (inside : i < parts.length) : before parts i < before parts (i + 1) := by
  rw [before, before, List.sum_take_succ parts i inside]
  exact lt_add_of_pos_right _ (positive _ (List.getElem_mem inside))

/-- The walk stops at an index exactly when the draw lies between the sum of the
parts before it and the sum with its own part. -/
theorem pick_eq_some_iff (parts : List K) (nonneg : ∀ part ∈ parts, 0 ≤ part) (draw : K)
    (positive : 0 ≤ draw) (i : ℕ) :
    pick parts draw = some i ↔
      i < parts.length ∧ before parts i ≤ draw ∧ draw < before parts (i + 1) := by
  induction parts generalizing draw i with
  | nil => simp [pick]
  | cons part rest ih =>
    rw [List.forall_mem_cons] at nonneg
    rw [pick]
    split
    next inside =>
      rw [Option.some.injEq]
      constructor
      · intro first
        subst i
        simpa [before_cons_succ] using ⟨positive, inside⟩
      · intro between
        cases i with
        | zero => rfl
        | succ i =>
          have rest_nonneg := before_le rest nonneg.2 (Nat.zero_le i)
          rw [before_zero] at rest_nonneg
          rw [before_cons_succ] at between
          have reached := le_trans (le_add_of_nonneg_right rest_nonneg) between.2.1
          exact absurd inside (not_lt_of_ge reached)
    next outside =>
      have remaining := sub_nonneg.mpr (not_lt.mp outside)
      cases i with
      | zero => simp [before_cons_succ, outside]
      | succ i =>
        rw [before_cons_succ, before_cons_succ, ← le_sub_iff_add_le', ← sub_lt_iff_lt_add',
          List.length_cons, Nat.add_lt_add_iff_right, ← ih nonneg.2 _ remaining]
        simp

/-- A draw below the whole sum falls in some part. -/
theorem pick_isSome (parts : List K) (draw : K) (positive : 0 ≤ draw)
    (below : draw < parts.sum) : (pick parts draw).isSome := by
  induction parts generalizing draw with
  | nil => exact absurd below (not_lt_of_ge positive)
  | cons part rest ih =>
    rw [pick]
    split
    · rfl
    next outside =>
      rw [List.sum_cons, ← sub_lt_iff_lt_add'] at below
      simpa using ih _ (sub_nonneg.mpr (not_lt.mp outside)) below

end pick

section shares

variable {K : Type*} [Field K]

theorem before_map_div (parts : List K) (total : K) (i : ℕ) :
    before (parts.map (· / total)) i = before parts i / total := by
  simp only [before, ← List.map_take, div_eq_mul_inv]
  rw [List.sum_map_mul_right, List.map_id']

variable [LinearOrder K] [IsStrictOrderedRing K]

/-- A draw of the unit interval falls in the share of exactly one part, which is the
one that the walk over the shares stops at. -/
theorem pick_share {parts : List K} (nonempty : parts ≠ []) (positive : ∀ part ∈ parts, 0 < part)
    (draw : K) (unit : 0 ≤ draw ∧ draw < 1) :
    ∃ i, pick (parts.map (· / parts.sum)) draw = some i ∧
      ∀ j, (j < parts.length ∧ before parts j / parts.sum ≤ draw ∧
        draw < before parts (j + 1) / parts.sum) ↔ j = i := by
  have total := List.sum_pos parts positive nonempty
  have shares : ∀ part ∈ parts.map (· / parts.sum), 0 ≤ part := by
    intro share member
    obtain ⟨part, inside, rfl⟩ := List.mem_map.mp member
    exact div_nonneg (positive part inside).le total.le
  have whole : (parts.map (· / parts.sum)).sum = 1 := by
    have all := before_map_div parts parts.sum parts.length
    rw [before_length, div_self total.ne', ← List.length_map (· / parts.sum), before_length] at all
    exact all
  obtain ⟨i, picked⟩ := Option.isSome_iff_exists.mp
    (pick_isSome (parts.map (· / parts.sum)) draw unit.1 (whole ▸ unit.2))
  refine ⟨i, picked, ?_⟩
  intro j
  have falls := pick_eq_some_iff (parts.map (· / parts.sum)) shares draw unit.1 j
  rw [before_map_div, before_map_div, List.length_map] at falls
  rw [← falls, picked, Option.some.injEq, eq_comm]

end shares

section interpolation

variable {K : Type*} [Field K] [LinearOrder K] [IsStrictOrderedRing K]

/-- The line through `(corner, height)` and `(1, 1)`, as computed from its slope. -/
theorem interpolation_bounds (corner height draw : K) (inside : corner < 1) (below : height ≤ 1)
    (reached : corner ≤ draw) (small : draw < 1) :
    height ≤ (1 - height) / (1 - corner) * draw - (1 - height) / (1 - corner) + 1 ∧
      (1 - height) / (1 - corner) * draw - (1 - height) / (1 - corner) + 1 ≤ 1 := by
  have width : 0 < 1 - corner := sub_pos.mpr inside
  have line : (1 - height) / (1 - corner) * draw - (1 - height) / (1 - corner) + 1 =
      1 - (1 - height) * ((1 - draw) / (1 - corner)) := by
    field_simp
    ring
  have share : 0 ≤ (1 - draw) / (1 - corner) ∧ (1 - draw) / (1 - corner) ≤ 1 :=
    ⟨div_nonneg (by linarith) width.le, (div_le_one width).mpr (by linarith)⟩
  rw [line]
  constructor
  · have part := mul_le_of_le_one_right (sub_nonneg.mpr below) share.2
    linarith
  · have part := mul_nonneg (sub_nonneg.mpr below) share.1
    linarith

theorem interpolation_lt_one (corner height draw : K) (inside : corner < 1) (below : height < 1)
    (small : draw < 1) :
    (1 - height) / (1 - corner) * draw - (1 - height) / (1 - corner) + 1 < 1 := by
  have slope : 0 < (1 - height) / (1 - corner) :=
    div_pos (sub_pos.mpr below) (sub_pos.mpr inside)
  have less := mul_lt_of_lt_one_right slope small
  linarith

end interpolation

end YcsbCloud.Library.InverseTransform
