import Mathlib.Algebra.Order.Ring.Nat
import Mathlib.Algebra.BigOperators.Group.List.Basic
import Mathlib.Data.List.GetD
import Mathlib.Data.List.Sort
import Mathlib.Order.Monotone.Basic

/-!
# Order statistics and tallies

The `k`-th smallest of a list is told by how many of the list are below it and how many
are not above it. A tally counts how often each number of a range occurs. Summed from
the start, it reaches `k` at the `k`-th smallest number. The running maxima of a list are
in order, whatever the list.
-/
namespace YcsbCloud.Library.OrderStatistics

section Smallest

variable {α β : Type*} [LinearOrder α] [LinearOrder β]

/-- `x` is the `k`-th smallest of the list, from one on. -/
structure IsSmallest (xs : List α) (k : ℕ) (x : α) : Prop where
  member : x ∈ xs
  below : xs.countP (· < x) < k
  reached : k ≤ xs.countP (· ≤ x)

theorem IsSmallest.le {xs : List α} {k : ℕ} {x y : α} (first : IsSmallest xs k x)
    (second : IsSmallest xs k y) : x ≤ y := by
  by_contra above
  have fewer : xs.countP (· ≤ y) ≤ xs.countP (· < x) := by
    apply List.countP_mono_left
    intro z _ small
    exact decide_eq_true (lt_of_le_of_lt (of_decide_eq_true small) (not_le.mp above))
  have := first.below
  have := second.reached
  omega

theorem IsSmallest.unique {xs : List α} {k : ℕ} {x y : α} (first : IsSmallest xs k x)
    (second : IsSmallest xs k y) : x = y :=
  le_antisymm (first.le second) (second.le first)

/-- A monotone function keeps the order of the statistics. -/
theorem IsSmallest.map {xs : List α} {k : ℕ} {x : α} (smallest : IsSmallest xs k x) {f : α → β}
    (mono : Monotone f) : IsSmallest (xs.map f) k (f x) := by
  refine ⟨List.mem_map_of_mem smallest.member, ?_, ?_⟩
  · rw [List.countP_map]
    refine lt_of_le_of_lt (List.countP_mono_left ?_) smallest.below
    intro z _ small
    exact decide_eq_true (mono.reflect_lt (of_decide_eq_true small))
  · rw [List.countP_map]
    refine le_trans smallest.reached (List.countP_mono_left ?_)
    intro z _ small
    exact decide_eq_true (mono (of_decide_eq_true small))

theorem countP_lt_getElem {ys : List α} (sorted : ys.Pairwise (· ≤ ·)) {j : ℕ}
    (inside : j < ys.length) : ys.countP (· < ys[j]) ≤ j := by
  have none_after : (ys.drop j).countP (· < ys[j]) = 0 := by
    rw [List.countP_eq_zero]
    intro z later
    obtain ⟨i, bound, rfl⟩ := List.mem_iff_getElem.mp later
    rw [List.getElem_drop, decide_eq_true_eq, not_lt]
    rcases Nat.eq_zero_or_pos i with rfl | positive
    · exact le_refl _
    · rw [List.length_drop] at bound
      exact (List.pairwise_iff_getElem.mp sorted) j (j + i) inside (by omega) (by omega)
  calc ys.countP (· < ys[j])
      = (ys.take j).countP (· < ys[j]) + (ys.drop j).countP (· < ys[j]) := by
        rw [← List.countP_append, List.take_append_drop]
    _ ≤ j := by
        rw [none_after, Nat.add_zero]
        exact Nat.le_trans List.countP_le_length (List.length_take_le ..)

theorem lt_countP_le_getElem {ys : List α} (sorted : ys.Pairwise (· ≤ ·)) {j : ℕ}
    (inside : j < ys.length) : j < ys.countP (· ≤ ys[j]) := by
  have all_before : (ys.take (j + 1)).countP (· ≤ ys[j]) = j + 1 := by
    have whole : (ys.take (j + 1)).length = j + 1 := by
      rw [List.length_take]
      omega
    refine Eq.trans (List.countP_eq_length.mpr ?_) whole
    intro z earlier
    obtain ⟨i, bound, rfl⟩ := List.mem_iff_getElem.mp earlier
    rw [List.getElem_take, decide_eq_true_eq]
    rcases Nat.lt_or_ge i j with before | after
    · exact (List.pairwise_iff_getElem.mp sorted) i j (by omega) inside before
    · have same : i = j := by omega
      subst same
      exact le_refl _
  have part := (List.take_sublist (j + 1) ys).countP_le (p := (· ≤ ys[j]))
  omega

/-- The `k`-th smallest stands in the sorted list. -/
theorem isSmallest_mergeSort (xs : List α) {k : ℕ} (positive : 0 < k)
    (inside : k - 1 < xs.mergeSort.length) : IsSmallest xs k (xs.mergeSort[k - 1]) := by
  have same : xs.mergeSort.Perm xs := List.mergeSort_perm xs _
  have sorted : xs.mergeSort.Pairwise (· ≤ ·) := List.pairwise_mergeSort' (· ≤ ·) xs
  have below := countP_lt_getElem sorted inside
  have reached := lt_countP_le_getElem sorted inside
  rw [same.countP_eq] at below reached
  exact ⟨same.mem_iff.mp (List.getElem_mem inside), by omega, by omega⟩

end Smallest

/-- The first position at which the counts, summed from the start, reach `k`. -/
def reach : List ℕ → ℕ → Option ℕ
  | [], _ => none
  | count :: rest, k => if k ≤ count then some 0 else (reach rest (k - count)).map (· + 1)

theorem reach_eq_some {counts : List ℕ} {k i : ℕ} (positive : 0 < k) :
    reach counts k = some i ↔ (counts.take i).sum < k ∧ k ≤ (counts.take (i + 1)).sum := by
  induction counts generalizing k i with
  | nil =>
    simp only [reach, List.take_nil, List.sum_nil]
    constructor
    · intro found
      cases found
    · omega
  | cons count rest ih =>
    rw [reach, List.take_succ_cons, List.sum_cons]
    split
    next here =>
      cases i with
      | zero => simp [positive, here]
      | succ i =>
        rw [List.take_succ_cons, List.sum_cons]
        constructor
        · intro found
          cases found
        · omega
    next later =>
      cases i with
      | zero => simp [later]
      | succ i =>
        rw [List.take_succ_cons, List.sum_cons, Option.map_eq_some_iff]
        simp only [Nat.add_right_cancel_iff, exists_eq_right]
        rw [ih (by omega)]
        omega

theorem reach_eq_none {counts : List ℕ} {k : ℕ} (positive : 0 < k) :
    reach counts k = none ↔ counts.sum < k := by
  induction counts generalizing k with
  | nil => simp [reach, positive]
  | cons count rest ih =>
    rw [reach, List.sum_cons]
    split
    next here =>
      constructor
      · intro missing
        cases missing
      · omega
    next later =>
      rw [Option.map_eq_none_iff, ih (by omega)]
      omega

/-- How often each number below `n` occurs. -/
def tally (n : ℕ) (xs : List ℕ) : List ℕ := (List.range n).map fun i => xs.count i

@[simp] theorem length_tally (n : ℕ) (xs : List ℕ) : (tally n xs).length = n := by
  rw [tally, List.length_map, List.length_range]

@[simp] theorem tally_nil (n : ℕ) : tally n [] = List.replicate n 0 := by
  refine List.ext_getElem (by simp) ?_
  intro i _ _
  simp [tally]

theorem getElem_tally {n i : ℕ} {xs : List ℕ} (inside : i < (tally n xs).length) :
    (tally n xs)[i] = xs.count i := by
  simp only [tally, List.getElem_map, List.getElem_range]

/-- More occurrences of one number raise its count alone. -/
theorem tally_append_replicate (n : ℕ) (xs : List ℕ) (times i : ℕ) :
    tally n (xs ++ List.replicate times i) = (tally n xs).modify i (· + times) := by
  refine List.ext_getElem (by simp) ?_
  intro j _ _
  rw [getElem_tally, List.getElem_modify, getElem_tally, List.count_append, List.count_replicate]
  by_cases same : i = j
  · simp [same]
  · simp [same]

theorem countP_lt_succ (xs : List ℕ) (i : ℕ) :
    xs.countP (· < i + 1) = xs.countP (· < i) + xs.count i := by
  induction xs with
  | nil => rfl
  | cons x rest ih =>
    simp only [List.countP_cons, List.count_cons, decide_eq_true_eq, beq_iff_eq]
    rw [ih]
    rcases Nat.lt_trichotomy x i with less | same | more
    · simp [less, Nat.lt_succ_of_lt less, Nat.ne_of_lt less]
      omega
    · simp [same]
      omega
    · simp [Nat.not_lt_of_gt more, Nat.ne_of_gt more, show ¬ x < i + 1 by omega]

theorem sum_take_tally {n : ℕ} (xs : List ℕ) {i : ℕ} (inside : i ≤ n) :
    ((tally n xs).take i).sum = xs.countP (· < i) := by
  rw [tally, ← List.map_take, List.take_range, Nat.min_eq_left inside]
  clear inside
  induction i with
  | zero => simp
  | succ i ih =>
    rw [List.range_succ, List.map_append, List.sum_append, ih, countP_lt_succ]
    simp

theorem sum_tally {n : ℕ} {xs : List ℕ} (small : ∀ x ∈ xs, x < n) : (tally n xs).sum = xs.length := by
  have whole := sum_take_tally xs (le_refl n)
  rw [List.take_of_length_le (by simp)] at whole
  rw [whole, List.countP_eq_length]
  intro x member
  exact decide_eq_true (small x member)

/-- The counts reach `k` at the `k`-th smallest number. -/
theorem reach_tally {n : ℕ} {xs : List ℕ} (small : ∀ x ∈ xs, x < n) {k i : ℕ} (positive : 0 < k) :
    reach (tally n xs) k = some i ↔ IsSmallest xs k i := by
  rw [reach_eq_some positive]
  have upTo : xs.countP (· ≤ i) = xs.countP (· < i + 1) := by
    apply List.countP_congr
    intro x _
    simp only [decide_eq_true_eq]
    omega
  have next := sum_take_tally xs (n := n) (i := i + 1)
  constructor
  · intro reached
    have inside : i < n := by
      by_contra outside
      rw [List.take_of_length_le (by simp; omega), List.take_of_length_le (by simp; omega)] at reached
      omega
    rw [sum_take_tally xs (Nat.le_of_lt inside), next inside] at reached
    have occurs : 0 < xs.count i := by
      have := countP_lt_succ xs i
      omega
    exact ⟨List.count_pos_iff.mp occurs, reached.1, by omega⟩
  · intro smallest
    have inside := small i smallest.member
    rw [sum_take_tally xs (Nat.le_of_lt inside), next inside, ← upTo]
    exact ⟨smallest.below, smallest.reached⟩

/-- The counts that are not zero, each with its number, from `i` on. -/
def entries (counts : List ℕ) (i : ℕ) : List (ℕ × ℕ) := (counts.zipIdx i).filter fun e => e.1 ≠ 0

/-- Each number as often as it is counted. -/
def expand (counts : List ℕ) (i : ℕ) : List ℕ :=
  (entries counts i).flatMap fun e => List.replicate e.1 e.2

theorem entries_cons (count : ℕ) (rest : List ℕ) (i : ℕ) :
    entries (count :: rest) i =
      if count = 0 then entries rest (i + 1) else (count, i) :: entries rest (i + 1) := by
  rw [entries, List.zipIdx_cons, List.filter_cons]
  by_cases zero : count = 0
  · rw [if_neg (by simp [zero]), if_pos zero, entries]
  · rw [if_pos (by simp [zero]), if_neg zero, entries]

theorem expand_cons (count : ℕ) (rest : List ℕ) (i : ℕ) :
    expand (count :: rest) i = List.replicate count i ++ expand rest (i + 1) := by
  rw [expand, entries_cons]
  split
  next zero =>
    rw [zero, List.replicate_zero, List.nil_append, expand]
  · rw [List.flatMap_cons, expand]

theorem entries_eq_nil {counts : List ℕ} (zero : counts.sum = 0) (i : ℕ) : entries counts i = [] := by
  induction counts generalizing i with
  | nil => rfl
  | cons count rest ih =>
    rw [List.sum_cons] at zero
    rw [entries_cons, if_pos (by omega), ih (by omega)]

theorem count_expand (counts : List ℕ) (i j : ℕ) :
    (expand counts i).count j = if i ≤ j then counts.getD (j - i) 0 else 0 := by
  induction counts generalizing i with
  | nil =>
    rw [expand, entries, List.zipIdx_nil, List.filter_nil, List.flatMap_nil, List.count_nil]
    split <;> rfl
  | cons count rest ih =>
    rw [expand_cons, List.count_append, List.count_replicate, ih]
    rcases Nat.lt_trichotomy i j with less | same | more
    · obtain ⟨k, rfl⟩ : ∃ k, j = i + 1 + k := ⟨j - (i + 1), by omega⟩
      rw [if_neg (by simp; omega), if_pos (by omega), if_pos (by omega), Nat.zero_add,
        show i + 1 + k - i = k + 1 by omega, List.getD_cons_succ, Nat.add_sub_cancel_left]
    · subst same
      simp
    · rw [if_neg (by simp; omega), if_neg (by omega), if_neg (by omega)]

theorem tally_expand (counts : List ℕ) : tally counts.length (expand counts 0) = counts := by
  refine List.ext_getElem (length_tally ..) ?_
  intro j _ inside
  rw [getElem_tally, count_expand, if_pos (Nat.zero_le j), Nat.sub_zero,
    List.getD_eq_getElem _ _ inside]

theorem expand_tally {n : ℕ} {xs : List ℕ} (small : ∀ x ∈ xs, x < n) :
    (expand (tally n xs) 0).Perm xs := by
  rw [List.perm_iff_count]
  intro j
  rw [count_expand, if_pos (Nat.zero_le j), Nat.sub_zero]
  by_cases inside : j < n
  · rw [List.getD_eq_getElem _ _ (by rwa [length_tally]), getElem_tally]
  · rw [List.getD_eq_default _ _ (by rwa [length_tally, ← Nat.not_lt]), eq_comm,
      List.count_eq_zero]
    exact fun member => inside (small j member)

theorem tally_perm (n : ℕ) {xs ys : List ℕ} (same : xs.Perm ys) : tally n xs = tally n ys := by
  unfold tally
  exact List.map_congr_left fun i _ => same.count_eq i

/-- A sum over the numbers as often as they are counted. -/
theorem sum_map_expand (f : ℕ → ℕ) (counts : List ℕ) (i : ℕ) :
    ((expand counts i).map f).sum = ((entries counts i).map fun e => e.1 * f e.2).sum := by
  rw [expand]
  induction entries counts i with
  | nil => rfl
  | cons entry rest ih =>
    rw [List.flatMap_cons, List.map_append, List.sum_append, ih, List.map_replicate,
      List.sum_replicate_nat, List.map_cons, List.sum_cons]

section Running

variable {α β : Type*} [LinearOrder α] [LinearOrder β]

/-- At each place of a list the greatest element so far. -/
def runningMax (m : α) : List α → List α
  | [] => []
  | x :: rest => max m x :: runningMax (max m x) rest

theorem runningMax_map {f : α → β} (mono : Monotone f) (m : α) (xs : List α) :
    runningMax (f m) (xs.map f) = (runningMax m xs).map f := by
  induction xs generalizing m with
  | nil => rfl
  | cons x rest ih => rw [List.map_cons, runningMax, runningMax, List.map_cons, ← mono.map_max, ih]

theorem runningMax_sorted {m : α} {xs : List α} (sorted : (m :: xs).Pairwise (· ≤ ·)) :
    runningMax m xs = xs := by
  induction xs generalizing m with
  | nil => rfl
  | cons x rest ih =>
    rw [List.pairwise_cons] at sorted
    rw [runningMax, max_eq_right (sorted.1 x (List.mem_cons_self ..)), ih sorted.2]

end Running

end YcsbCloud.Library.OrderStatistics
