import Mathlib.Analysis.SpecialFunctions.Pow.Real
import YcsbCloud.Library.InverseTransform
import YcsbCloud.Source.Generators

/-!
# `core/zipfian_generator.h` over exact reals

The state of a zipfian generator with its floating-point members taken as reals,
`std::pow` as the real power and the draw of `utils::RandomDouble` as an argument.
What has no value in exact arithmetic has none here: a quotient by zero, the
power of a negative number, a number outside `uint64_t`.
-/
namespace YcsbCloud.Source
open Library

/-- `a / b`. -/
noncomputable def quotient (a b : ℝ) : Option ℝ := if b = 0 then none else some (a / b)

/-- `std::pow`. -/
noncomputable def stdPow (base exponent : ℝ) : Option ℝ :=
  if 0 ≤ base then some (base ^ exponent) else none

/-- The conversion of a `double` to `uint64_t`. -/
noncomputable def toUint64 (x : ℝ) : Option Nat :=
  if 0 ≤ x ∧ x < 2 ^ 64 then some ⌊x⌋₊ else none

/-- `kZipfianConst`. -/
noncomputable def kZipfianConst : ℝ := 99 / 100

theorem kZipfianConst_range : 0 < kZipfianConst ∧ kZipfianConst < 1 := by
  unfold kZipfianConst
  norm_num

/-- The members of a generator; `eta` is `none` where `Eta` divided by zero. -/
structure ZipfianState extends ZipfianGenerator where
  theta : ℝ
  zetaN : ℝ
  eta : Option ℝ
  alpha : ℝ
  zeta2 : ℝ
  nForZeta : Nat
  lastValue : Nat

namespace ZipfianState

/-- `Zeta(last_num, cur_num, theta, last_zeta)`. -/
noncomputable def zetaFrom (lastNum curNum : Nat) (theta lastZeta : ℝ) : ℝ :=
  InverseTransform.accumulate (fun i => 1 / (i : ℝ) ^ theta) (curNum - lastNum) (lastNum + 1)
    lastZeta

/-- `Zeta(num, theta)`. -/
noncomputable def zeta (num : Nat) (theta : ℝ) : ℝ := zetaFrom 0 num theta 0

/-- `RaiseZeta`, with its assertion. -/
noncomputable def raiseZeta (s : ZipfianState) (num : Nat) : Option ZipfianState :=
  if s.nForZeta ≤ num then
    some { s with zetaN := zetaFrom s.nForZeta num s.theta s.zetaN, nForZeta := num }
  else none

/-- `Eta`, from the number of items that the generator was built for. -/
noncomputable def etaOf (s : ZipfianState) : Option ℝ := do
  let share ← quotient 2 s.numItems
  let ratio ← quotient s.zeta2 s.zetaN
  quotient (1 - share ^ (1 - s.theta)) (1 - ratio)

/-- Where `Next` recomputes `zeta_n_` and `eta_`. -/
noncomputable def recompute (s : ZipfianState) (num : Nat) : Option ZipfianState :=
  if num > s.nForZeta then do
    let s ← s.raiseZeta num
    some { s with eta := s.etaOf }
  else some s

/-- `Next(num)` on a draw of the random generator: the value and the state after. -/
noncomputable def next (s : ZipfianState) (num : Nat) (u : ℝ) : Option (Nat × ZipfianState) :=
  if 2 ≤ num ∧ num < kMaxNumItems then do
    let s ← s.recompute num
    let uz := u * s.zetaN
    if uz < 1 then some (0, { s with lastValue := 0 })
    else if uz < 1 + (1 / 2) ^ s.theta then some (1, { s with lastValue := 1 })
    else do
      let eta ← s.eta
      let power ← stdPow (eta * u - eta + 1) s.alpha
      let value ← toUint64 (s.base + num * power)
      some (value, { s with lastValue := value })
  else none

/-- The members before zeta is raised for the first time. -/
noncomputable def fresh (parameters : ZipfianGenerator) (theta alpha : ℝ) : ZipfianState :=
  { parameters with
    theta := theta
    zetaN := 0
    eta := none
    alpha := alpha
    zeta2 := zeta 2 theta
    nForZeta := 0
    lastValue := 0 }

/-- The constructor over `[min, max]`, which draws once. -/
noncomputable def construct (min max : Nat) (theta u : ℝ) : Option ZipfianState := do
  let parameters ← (ZipfianGenerator.make min max).toOption
  let alpha ← quotient 1 (1 - theta)
  let s ← (fresh parameters theta alpha).raiseZeta parameters.numItems
  let drawn ← next { s with eta := s.etaOf } s.numItems u
  some drawn.2

/-- `Next()`. -/
noncomputable def nextValue (s : ZipfianState) (u : ℝ) : Option (Nat × ZipfianState) :=
  s.next s.numItems u

theorem zetaFrom_zeta {lastNum curNum : Nat} (ordered : lastNum ≤ curNum) (theta : ℝ) :
    zetaFrom lastNum curNum theta (zeta lastNum theta) = zeta curNum theta := by
  have resumed := InverseTransform.accumulate_resume (fun i : ℕ => 1 / (i : ℝ) ^ theta) lastNum
    (curNum - lastNum) 1 0
  rw [Nat.add_sub_cancel' ordered] at resumed
  rw [zetaFrom, zeta, zeta, zetaFrom, zetaFrom, Nat.sub_zero, Nat.sub_zero, Nat.add_comm lastNum]
  exact resumed

theorem zeta_succ (num : Nat) (theta : ℝ) :
    zeta (num + 1) theta = zeta num theta + 1 / ((num : ℝ) + 1) ^ theta := by
  rw [← zetaFrom_zeta (Nat.le_add_right num 1) theta, zetaFrom, Nat.add_sub_cancel_left]
  simp [InverseTransform.accumulate]

theorem zeta_two (theta : ℝ) : zeta 2 theta = 1 + (1 / 2) ^ theta := by
  rw [zeta_succ, zeta_succ, show zeta 0 theta = 0 from rfl, Real.div_rpow one_pos.le two_pos.le]
  norm_num

theorem zeta_lt {m n : Nat} (less : m < n) (theta : ℝ) : zeta m theta < zeta n theta := by
  induction n with
  | zero => omega
  | succ n ih =>
    have term : 0 < 1 / ((n : ℝ) + 1) ^ theta := by positivity
    rw [zeta_succ]
    rcases Nat.lt_succ_iff_lt_or_eq.mp less with before | same
    · exact (ih before).trans (lt_add_of_pos_right _ term)
    · rw [same]
      exact lt_add_of_pos_right _ term

theorem zeta_pos {num : Nat} (positive : 0 < num) (theta : ℝ) : 0 < zeta num theta :=
  zeta_lt positive theta

/-- `eta_` of a generator built for so many items, when zeta was last raised to
another number. -/
noncomputable def etaAt (numItems nForZeta : Nat) (theta : ℝ) : Option ℝ := do
  let share ← quotient 2 numItems
  let ratio ← quotient (zeta 2 theta) (zeta nForZeta theta)
  quotient (1 - share ^ (1 - theta)) (1 - ratio)

/-- Only the number that zeta was raised to and the last value change after
construction. -/
noncomputable def settled (parameters : ZipfianGenerator) (theta : ℝ) (nForZeta lastValue : Nat) :
    ZipfianState :=
  { parameters with
    theta := theta
    zetaN := zeta nForZeta theta
    eta := etaAt parameters.numItems nForZeta theta
    alpha := 1 / (1 - theta)
    zeta2 := zeta 2 theta
    nForZeta := nForZeta
    lastValue := lastValue }

/-- The divisor of `Eta` is zero for two items only. -/
theorem zeta_ratio {num : Nat} (more : 2 < num) (theta : ℝ) :
    0 < zeta 2 theta / zeta num theta ∧ zeta 2 theta / zeta num theta < 1 := by
  have two := zeta_pos two_pos theta
  have all := zeta_pos (Nat.zero_lt_of_lt more) theta
  exact ⟨div_pos two all, (div_lt_one all).mpr (zeta_lt more theta)⟩

/-- `eta_` where no divisor is zero. -/
noncomputable def etaReal (numItems nForZeta : Nat) (theta : ℝ) : ℝ :=
  (1 - (2 / (numItems : ℝ)) ^ (1 - theta)) / (1 - zeta 2 theta / zeta nForZeta theta)

theorem etaAt_eq {num numItems : Nat} (items : 0 < numItems) (more : 2 < num) (theta : ℝ) :
    etaAt numItems num theta = some (etaReal numItems num theta) := by
  have count : (numItems : ℝ) ≠ 0 := by exact_mod_cast items.ne'
  have divisor := (zeta_pos (Nat.zero_lt_of_lt more) theta).ne'
  have width := (sub_pos.mpr (zeta_ratio more theta).2).ne'
  simp only [etaAt, etaReal, quotient, if_neg count, if_neg divisor, Option.bind_eq_bind,
    Option.bind_some, if_neg width]

/-- What a draw of `Next(num)` returns, branch by branch, when zeta has been raised
to `nForZeta`. The power of the third branch lies between what makes rank two and
one. -/
inductive Drawn (parameters : ZipfianGenerator) (theta : ℝ) (nForZeta num : Nat) (u : ℝ) :
    Nat → Prop where
  | first (below : u * zeta nForZeta theta < 1) : Drawn parameters theta nForZeta num u 0
  | second (reached : 1 ≤ u * zeta nForZeta theta)
      (below : u * zeta nForZeta theta < 1 + (1 / 2) ^ theta) :
      Drawn parameters theta nForZeta num u 1
  | tail (reached : 1 + (1 / 2) ^ theta ≤ u * zeta nForZeta theta) (more : 2 < nForZeta)
      (base power : ℝ)
      (based : base = etaReal parameters.numItems nForZeta theta * u -
        etaReal parameters.numItems nForZeta theta + 1)
      (raised : power = base ^ (1 / (1 - theta)))
      (range : 0 < base ∧ base ≤ 1) (lower : 2 / (parameters.numItems : ℝ) ≤ power)
      (upper : power ≤ 1) (strict : 2 < parameters.numItems → base < 1 ∧ power < 1) :
      Drawn parameters theta nForZeta num u (parameters.base + ⌊num * power⌋₊)

section draws

variable {parameters : ZipfianGenerator} {theta u : ℝ} {nForZeta num value : Nat}

theorem one_lt_second (theta : ℝ) : (1 : ℝ) < 1 + (1 / 2) ^ theta :=
  lt_add_of_pos_right 1 (Real.rpow_pos_of_pos one_half_pos theta)

theorem Drawn.eq_zero (drawn : Drawn parameters theta nForZeta num u value)
    (below : u * zeta nForZeta theta < 1) : value = 0 := by
  have half := one_lt_second theta
  cases drawn with
  | first _ => rfl
  | second reached _ => exact absurd below (not_lt.mpr reached)
  | tail reached => exact absurd below (not_lt.mpr (half.le.trans reached))

theorem Drawn.eq_one (drawn : Drawn parameters theta nForZeta num u value)
    (reached : 1 ≤ u * zeta nForZeta theta)
    (below : u * zeta nForZeta theta < 1 + (1 / 2) ^ theta) : value = 1 := by
  cases drawn with
  | first less => exact absurd less (not_lt.mpr reached)
  | second _ _ => rfl
  | tail third => exact absurd below (not_lt.mpr third)

theorem Drawn.eq_tail (drawn : Drawn parameters theta nForZeta num u value)
    (reached : 1 + (1 / 2) ^ theta ≤ u * zeta nForZeta theta) :
    value = parameters.base + ⌊num * (etaReal parameters.numItems nForZeta theta * u -
      etaReal parameters.numItems nForZeta theta + 1) ^ (1 / (1 - theta))⌋₊ := by
  have half := one_lt_second theta
  cases drawn with
  | first below => exact absurd (half.le.trans reached) (not_le.mpr below)
  | second _ below => exact absurd reached (not_le.mpr below)
  | tail _ _ base power based raised => rw [raised, based]

/-- Whatever branch gave it, a draw for `num` items is at most `num` above the base. -/
theorem Drawn.le (drawn : Drawn parameters theta nForZeta num u value) (positive : 0 < num) :
    value ≤ parameters.base + num := by
  cases drawn with
  | first _ => exact Nat.zero_le _
  | second _ _ => omega
  | tail _ _ base power _ _ _ _ upper _ =>
    have whole := mul_le_of_le_one_right num.cast_nonneg upper
    have floored := Nat.floor_le_of_le whole
    omega

/-- The third branch is out of reach for two items: the first two cover the draws. -/
theorem more_than_two (two : 2 ≤ nForZeta) (small : u < 1)
    (reached : 1 + (1 / 2) ^ theta ≤ u * zeta nForZeta theta) : 2 < nForZeta := by
  rcases two.lt_or_eq with more | same
  · exact more
  · have less := mul_lt_of_lt_one_left (zeta_pos two_pos theta) small
    rw [← same, ← zeta_two] at reached
    exact absurd reached (not_le_of_gt less)

/-- The power of the third branch. -/
theorem tail_power (parameters : ZipfianGenerator) (exponent : 0 < theta ∧ theta < 1)
    (items : 2 ≤ parameters.numItems) (more : 2 < nForZeta) (small : u < 1) (base : ℝ)
    (reached : 1 + (1 / 2) ^ theta ≤ u * zeta nForZeta theta)
    (based : base = etaReal parameters.numItems nForZeta theta * u -
      etaReal parameters.numItems nForZeta theta + 1) :
    (0 < base ∧ base ≤ 1) ∧ 2 / (parameters.numItems : ℝ) ≤ base ^ (1 / (1 - theta)) ∧
      base ^ (1 / (1 - theta)) ≤ 1 ∧
      (2 < parameters.numItems → base < 1 ∧ base ^ (1 / (1 - theta)) < 1) := by
  have complement : 0 < 1 - theta := sub_pos.mpr exponent.2
  have alpha : 0 < 1 / (1 - theta) := one_div_pos.mpr complement
  have count : (2 : ℝ) ≤ parameters.numItems := by exact_mod_cast items
  have share : 0 < 2 / (parameters.numItems : ℝ) := by positivity
  have share_le : 2 / (parameters.numItems : ℝ) ≤ 1 := (div_le_one (by linarith)).mpr count
  have height : 0 < (2 / (parameters.numItems : ℝ)) ^ (1 - theta) :=
    Real.rpow_pos_of_pos share _
  have height_le := Real.rpow_le_one share.le share_le complement.le
  have corner : zeta 2 theta / zeta nForZeta theta ≤ u := by
    rw [div_le_iff₀ (zeta_pos (by omega) theta), zeta_two]
    exact reached
  have line := InverseTransform.interpolation_bounds (zeta 2 theta / zeta nForZeta theta)
    ((2 / (parameters.numItems : ℝ)) ^ (1 - theta)) u (zeta_ratio more theta).2 height_le corner
    small
  rw [← etaReal, ← based] at line
  have positive := height.trans_le line.1
  refine ⟨⟨positive, line.2⟩, ?_, Real.rpow_le_one positive.le line.2 alpha.le, ?_⟩
  · calc
      2 / (parameters.numItems : ℝ) =
          ((2 / (parameters.numItems : ℝ)) ^ (1 - theta)) ^ (1 / (1 - theta)) := by
        rw [one_div, Real.rpow_rpow_inv share.le complement.ne']
      _ ≤ base ^ (1 / (1 - theta)) := Real.rpow_le_rpow height.le line.1 alpha.le
  · intro several
    have share_lt : 2 / (parameters.numItems : ℝ) < 1 :=
      (div_lt_one (by linarith)).mpr (by exact_mod_cast several)
    have below := InverseTransform.interpolation_lt_one (zeta 2 theta / zeta nForZeta theta)
      ((2 / (parameters.numItems : ℝ)) ^ (1 - theta)) u (zeta_ratio more theta).2
      (Real.rpow_lt_one share.le share_lt complement) small
    rw [← etaReal, ← based] at below
    exact ⟨below, Real.rpow_lt_one positive.le below alpha⟩

/-- Zeta is raised for a draw that asks for more than any before. -/
theorem settled_recompute (parameters : ZipfianGenerator) (theta : ℝ)
    (nForZeta num lastValue : Nat) :
    (settled parameters theta nForZeta lastValue).recompute num =
      some (settled parameters theta (max nForZeta num) lastValue) := by
  rw [recompute]
  by_cases more : num > nForZeta
  · have raised : (settled parameters theta nForZeta lastValue).raiseZeta num =
        some { settled parameters theta num lastValue with
          eta := etaAt parameters.numItems nForZeta theta } := by
      simp only [raiseZeta, settled, if_pos (Nat.le_of_lt more), zetaFrom_zeta (Nat.le_of_lt more)]
    rw [if_pos (show num > (settled parameters theta nForZeta lastValue).nForZeta from more),
      raised, max_eq_right (Nat.le_of_lt more)]
    rfl
  · rw [if_neg (show ¬ num > (settled parameters theta nForZeta lastValue).nForZeta from more),
      max_eq_left (not_lt.mp more)]

/-- Where the source converts, the sum fits: it stays below the end of the range, or
ends there and the power is less than one. -/
theorem tail_value (power : ℝ) (lower : 0 ≤ power) (upper : power ≤ 1)
    (limit : parameters.base + num ≤ 2 ^ 64) (strict : parameters.base + num = 2 ^ 64 → power < 1)
    (positive : 0 < num) :
    toUint64 (parameters.base + num * power) = some (parameters.base + ⌊num * power⌋₊) := by
  have count : (0 : ℝ) < num := by exact_mod_cast positive
  have part : 0 ≤ num * power := by positivity
  have fits : (parameters.base : ℝ) + num * power < 2 ^ 64 := by
    rcases limit.lt_or_eq with below | full
    · have whole : (parameters.base : ℝ) + num < 2 ^ 64 := by exact_mod_cast below
      have less := mul_le_of_le_one_right count.le upper
      linarith
    · have whole : (parameters.base : ℝ) + num = 2 ^ 64 := by exact_mod_cast full
      have less := mul_lt_of_lt_one_right count (strict full)
      linarith
  rw [toUint64, if_pos ⟨add_nonneg parameters.base.cast_nonneg part, fits⟩,
    add_comm, Nat.floor_add_natCast part, add_comm]

/-- One draw: it has a value, which one of the branches gives, and leaves a state
like the one before. -/
theorem next_settled (parameters : ZipfianGenerator) (exponent : 0 < theta ∧ theta < 1)
    (items : 2 ≤ parameters.numItems) (two : 2 ≤ nForZeta) (asked : 2 ≤ num ∧ num < kMaxNumItems)
    (small : u < 1) (limit : parameters.base + num ≤ 2 ^ 64)
    (same : parameters.base + num = 2 ^ 64 → max nForZeta num = parameters.numItems)
    (lastValue : Nat) :
    ∃ value, next (settled parameters theta nForZeta lastValue) num u =
        some (value, settled parameters theta (max nForZeta num) value) ∧
      Drawn parameters theta (max nForZeta num) num u value := by
  rw [next, if_pos asked, settled_recompute]
  simp only [Option.bind_eq_bind, Option.bind_some, settled]
  by_cases first : u * zeta (max nForZeta num) theta < 1
  · exact ⟨0, if_pos first, .first first⟩
  by_cases second : u * zeta (max nForZeta num) theta < 1 + (1 / 2) ^ theta
  · exact ⟨1, by rw [if_neg first, if_pos second], .second (not_lt.mp first) second⟩
  have reached := not_lt.mp second
  have more := more_than_two (le_max_of_le_left two) small reached
  obtain ⟨range, lower, upper, strict⟩ := tail_power _ exponent items more small _ reached rfl
  refine ⟨_, ?_, .tail reached more _ _ rfl rfl range lower upper fun several =>
    ⟨(strict several).1, (strict several).2⟩⟩
  have positive := (div_pos two_pos (by exact_mod_cast (by omega : 0 < parameters.numItems) :
    (0 : ℝ) < parameters.numItems)).trans_le lower
  have fitted := tail_value _ positive.le upper limit
    (fun full => (strict (same full ▸ more)).2) (by omega)
  rw [if_neg first, if_neg second]
  simp only [etaAt_eq (Nat.zero_lt_of_lt items) more, Option.bind_some, stdPow,
    if_pos range.1.le, fitted]

/-- A draw of a generator whose ranks are not shifted: the sum always fits. -/
theorem next_rank (exponent : 0 < theta ∧ theta < 1) {n0 : Nat} (items : 2 ≤ n0)
    (two : 2 ≤ nForZeta) (asked : 2 ≤ num ∧ num < kMaxNumItems) (small : u < 1) (lastValue : Nat) :
    ∃ value, next (settled ⟨n0, 0⟩ theta nForZeta lastValue) num u =
        some (value, settled ⟨n0, 0⟩ theta (max nForZeta num) value) ∧
      Drawn ⟨n0, 0⟩ theta (max nForZeta num) num u value := by
  have limit : 0 + num < 2 ^ 64 := by
    unfold kMaxNumItems at asked
    omega
  exact next_settled ⟨n0, 0⟩ exponent items two asked small limit.le
    (fun full => absurd limit full.not_lt) lastValue

/-- Over a range of acceptable length the constructor's assertion holds. -/
theorem make_eq (min max : Nat) (ordered : min ≤ max) (bound : max < 2 ^ 64)
    (items : 2 ≤ max - min + 1 ∧ max - min + 1 < kMaxNumItems) :
    ZipfianGenerator.make min max = .ok ⟨max - min + 1, min⟩ := by
  rw [ZipfianGenerator.make, subU64_of_le _ _ ordered bound, addU64,
      Nat.mod_eq_of_lt (by unfold kMaxNumItems at items; omega), if_pos items]

/-- Raising zeta for the first time. -/
theorem fresh_raised (parameters : ZipfianGenerator) (theta : ℝ) :
    (fresh parameters theta (1 / (1 - theta))).raiseZeta parameters.numItems =
      some { settled parameters theta parameters.numItems 0 with eta := none } := by
  rw [raiseZeta, if_pos (show (fresh parameters theta _).nForZeta ≤ _ from Nat.zero_le _)]
  simp only [fresh, settled, zeta]

/-- The constructor leaves a state of the settled kind. -/
theorem construct_settled {min max : Nat} (ordered : min ≤ max) (bound : max < 2 ^ 64)
    (items : 2 ≤ max - min + 1 ∧ max - min + 1 < kMaxNumItems)
    (exponent : 0 < theta ∧ theta < 1) (small : u < 1) :
    ∃ value, construct min max theta u =
      some (settled ⟨max - min + 1, min⟩ theta (max - min + 1) value) := by
  have made := make_eq min max ordered bound items
  obtain ⟨value, drawn, _⟩ := next_settled ⟨max - min + 1, min⟩ exponent items.1 items.1 items small
    (by unfold kMaxNumItems at items; dsimp only; omega) (fun _ => max_self _) 0
  rw [max_self] at drawn
  refine ⟨value, ?_⟩
  have divisor : 1 - theta ≠ 0 := (sub_pos.mpr exponent.2).ne'
  rw [construct, made]
  simp only [Except.toOption, Option.bind_eq_bind, Option.bind_some, quotient, if_neg divisor,
    fresh_raised]
  exact congrArg (Option.bind · fun drawn => some drawn.2) drawn

end draws

end ZipfianState

end YcsbCloud.Source
