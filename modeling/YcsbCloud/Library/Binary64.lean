import Mathlib.Data.Int.Log
import Mathlib.Data.Rat.Floor
import Mathlib.Tactic.Linarith
import Mathlib.Tactic.NormNum
import Mathlib.Tactic.Positivity

/-!
# Rounding to doubles

A rational rounded to the nearest number of 53 bits, of two that are as near to the even
one, with no bit below the last of the subnormal numbers. What would overflow is not cut
off: the numbers rounded are small. Rounding keeps the order and leaves numbers of 53 bits
as they are, so that it stays between bounds that are such numbers. The logarithm is that of
forty terms of its series, more than a hundred bits, rounded.
-/
namespace YcsbCloud.Library.Binary64

/-- The nearest integer; of two that are as near, the even one. -/
def roundEven (x : ℚ) : ℤ :=
  if x - ⌊x⌋ < 1 / 2 then ⌊x⌋
  else if 1 / 2 < x - ⌊x⌋ then ⌊x⌋ + 1
  else if ⌊x⌋ % 2 = 0 then ⌊x⌋
  else ⌊x⌋ + 1

theorem roundEven_bounds (x : ℚ) : ⌊x⌋ ≤ roundEven x ∧ roundEven x ≤ ⌊x⌋ + 1 := by
  unfold roundEven
  split_ifs <;> omega

@[simp] theorem roundEven_intCast (n : ℤ) : roundEven n = n := by
  rw [roundEven, Int.floor_intCast, sub_self, if_pos (by norm_num)]

theorem roundEven_close (x : ℚ) : |(roundEven x : ℚ) - x| ≤ 1 / 2 := by
  have below := Int.floor_le x
  have above := Int.lt_floor_add_one x
  unfold roundEven
  split_ifs <;> rw [abs_le] <;> push_cast <;> constructor <;> linarith

theorem roundEven_mono {x y : ℚ} (ordered : x ≤ y) : roundEven x ≤ roundEven y := by
  have floors := Int.floor_le_floor ordered
  rcases Int.lt_or_eq_of_le floors with less | same
  · have := roundEven_bounds x
    have := roundEven_bounds y
    omega
  · have rest : x - ⌊x⌋ ≤ y - ⌊y⌋ := by
      rw [same]
      exact sub_le_sub_right ordered _
    unfold roundEven
    rw [same] at rest ⊢
    split_ifs <;> first | omega | (exfalso; linarith)

theorem roundEven_neg (x : ℚ) : roundEven (-x) = -roundEven x := by
  have below := Int.floor_le x
  have above := Int.lt_floor_add_one x
  by_cases whole : x = ⌊x⌋
  · rw [whole, ← Int.cast_neg, roundEven_intCast, roundEven_intCast]
  · have floor : ⌊-x⌋ = -⌊x⌋ - 1 := by
      rw [Int.floor_eq_iff]
      push_cast
      constructor
      · linarith
      · have := lt_of_le_of_ne below (Ne.symm whole)
        linarith
    unfold roundEven
    rw [floor]
    push_cast
    split_ifs <;> first | omega | (exfalso; linarith)

theorem le_roundEven {n : ℤ} {x : ℚ} (above : (n : ℚ) ≤ x) : n ≤ roundEven x := by
  rw [← roundEven_intCast n]
  exact roundEven_mono above

theorem roundEven_le {n : ℤ} {x : ℚ} (below : x ≤ n) : roundEven x ≤ n := by
  rw [← roundEven_intCast n]
  exact roundEven_mono below

/-- The place of the last bit that is kept of a number. -/
def lastPlace (x : ℚ) : ℤ := max (Int.log 2 |x|) (-1022) - 52

def round (x : ℚ) : ℚ := roundEven (x / 2 ^ lastPlace x) * 2 ^ lastPlace x

theorem unit_pos (x : ℚ) : (0 : ℚ) < 2 ^ lastPlace x := zpow_pos two_pos _

/-- What is rounded to an integer has 53 bits. -/
theorem scaled_lt (x : ℚ) : |x / 2 ^ lastPlace x| < 2 ^ 53 := by
  have unit := unit_pos x
  have next : |x| < (2 : ℚ) ^ (Int.log 2 |x| + 1) := by
    exact_mod_cast Int.lt_zpow_succ_log_self Nat.one_lt_two |x|
  have places : Int.log 2 |x| + 1 ≤ 53 + lastPlace x := by
    unfold lastPlace
    omega
  rw [abs_div, abs_of_pos unit, div_lt_iff₀ unit]
  calc |x| < 2 ^ (Int.log 2 |x| + 1) := next
    _ ≤ 2 ^ (53 + lastPlace x) := zpow_le_zpow_right₀ (by norm_num) places
    _ = 2 ^ 53 * 2 ^ lastPlace x := by
      rw [zpow_add₀ two_ne_zero]
      norm_num

/-- Numbers of 53 bits. -/
structure Representable (x : ℚ) : Prop where
  exists_eq : ∃ m e : ℤ, x = m * 2 ^ e ∧ |m| < 2 ^ 53 ∧ -1074 ≤ e

theorem lastPlace_le {m e : ℤ} (small : |m| < 2 ^ 53) (normal : -1074 ≤ e) (nonzero : m ≠ 0) :
    lastPlace (m * 2 ^ e) ≤ e := by
  have unit : (0 : ℚ) < 2 ^ e := zpow_pos two_pos e
  have positive : 0 < |(m : ℚ) * 2 ^ e| :=
    abs_pos.mpr (mul_ne_zero (Int.cast_ne_zero.mpr nonzero) (ne_of_gt unit))
  have bound : |(m : ℚ) * 2 ^ e| < 2 ^ (e + 53) := by
    rw [abs_mul, abs_of_pos unit, zpow_add₀ two_ne_zero, mul_comm]
    refine mul_lt_mul_of_pos_left ?_ unit
    exact_mod_cast small
  have log := (Int.lt_zpow_iff_log_lt Nat.one_lt_two positive).mp (by exact_mod_cast bound)
  unfold lastPlace
  omega

theorem round_eq {x : ℚ} (representable : Representable x) : round x = x := by
  obtain ⟨m, e, rfl, small, normal⟩ := representable
  by_cases zero : m = 0
  · subst zero
    have none_left : roundEven 0 = 0 := by simpa using roundEven_intCast 0
    simp [round, none_left]
  · have place := lastPlace_le small normal zero
    have unit := unit_pos ((m : ℚ) * 2 ^ e)
    obtain ⟨k, shift⟩ := Int.eq_ofNat_of_zero_le (Int.sub_nonneg_of_le place)
    have whole : (m : ℚ) * 2 ^ e / 2 ^ lastPlace (m * 2 ^ e) = ((m * 2 ^ k : ℤ) : ℚ) := by
      rw [div_eq_iff (ne_of_gt unit)]
      push_cast
      rw [mul_assoc, ← zpow_natCast, ← zpow_add₀ two_ne_zero]
      congr 2
      omega
    rw [round, whole, roundEven_intCast, ← whole, div_mul_cancel₀ _ (ne_of_gt unit)]

theorem round_zero : round 0 = 0 := round_eq ⟨0, 0, by norm_num, by norm_num, by norm_num⟩

theorem round_neg (x : ℚ) : round (-x) = -round x := by
  have place : lastPlace (-x) = lastPlace x := by rw [lastPlace, abs_neg, lastPlace]
  rw [round, place, neg_div, roundEven_neg]
  push_cast
  rw [neg_mul, round]

theorem round_nonneg {x : ℚ} (nonneg : 0 ≤ x) : 0 ≤ round x := by
  have scaled : ((0 : ℤ) : ℚ) ≤ x / 2 ^ lastPlace x := by
    rw [Int.cast_zero]
    exact div_nonneg nonneg (le_of_lt (unit_pos x))
  exact mul_nonneg (by exact_mod_cast le_roundEven scaled) (le_of_lt (unit_pos x))

/-- Where the places differ a power of two is between the numbers. -/
theorem round_mono_nonneg {x y : ℚ} (nonneg : 0 ≤ x) (ordered : x ≤ y) : round x ≤ round y := by
  have unit := unit_pos x
  rcases eq_or_lt_of_le nonneg with rfl | positive
  · rw [round_zero]
    exact round_nonneg ordered
  · have logs := Int.log_mono_right (b := 2) positive ordered
    have places : lastPlace x ≤ lastPlace y := by
      unfold lastPlace
      rw [abs_of_pos positive, abs_of_pos (lt_of_lt_of_le positive ordered)]
      omega
    rcases Int.lt_or_eq_of_le places with less | same
    · have log : Int.log 2 y = lastPlace y + 52 := by
        unfold lastPlace at less ⊢
        rw [abs_of_pos (lt_of_lt_of_le positive ordered)] at less ⊢
        omega
      have leading : (2 : ℚ) ^ (lastPlace y + 52) ≤ y := by
        rw [← log]
        exact_mod_cast Int.zpow_log_le_self Nat.one_lt_two (lt_of_lt_of_le positive ordered)
      have upper : roundEven (x / 2 ^ lastPlace x) ≤ 2 ^ 53 := by
        refine roundEven_le (le_of_lt ?_)
        exact_mod_cast (abs_lt.mp (scaled_lt x)).2
      have lower : 2 ^ 52 ≤ roundEven (y / 2 ^ lastPlace y) := by
        refine le_roundEven ?_
        rw [le_div_iff₀ (unit_pos y)]
        rw [zpow_add₀ two_ne_zero, mul_comm] at leading
        exact_mod_cast leading
      calc round x ≤ 2 ^ 53 * 2 ^ lastPlace x :=
            mul_le_mul_of_nonneg_right (by exact_mod_cast upper) (le_of_lt unit)
        _ = 2 ^ 52 * 2 ^ (lastPlace x + 1) := by
            rw [zpow_add₀ two_ne_zero]
            ring
        _ ≤ 2 ^ 52 * 2 ^ lastPlace y :=
            mul_le_mul_of_nonneg_left (zpow_le_zpow_right₀ (by norm_num) less) (by positivity)
        _ ≤ round y :=
            mul_le_mul_of_nonneg_right (by exact_mod_cast lower) (le_of_lt (unit_pos y))
    · unfold round
      rw [← same]
      refine mul_le_mul_of_nonneg_right ?_ (le_of_lt unit)
      exact_mod_cast roundEven_mono (div_le_div_of_nonneg_right ordered (le_of_lt unit))

theorem round_mono {x y : ℚ} (ordered : x ≤ y) : round x ≤ round y := by
  rcases le_total 0 x with nonneg | negative
  · exact round_mono_nonneg nonneg ordered
  · rcases le_total 0 y with other | below
    · have mirrored := round_nonneg (neg_nonneg.mpr negative)
      rw [round_neg] at mirrored
      exact le_trans (neg_nonneg.mp mirrored) (round_nonneg other)
    · have mirrored := round_mono_nonneg (neg_nonneg.mpr below) (neg_le_neg ordered)
      rw [round_neg, round_neg] at mirrored
      exact neg_le_neg_iff.mp mirrored

theorem round_le {x bound : ℚ} (representable : Representable bound) (below : x ≤ bound) :
    round x ≤ bound := by
  rw [← round_eq representable]
  exact round_mono below

theorem le_round {x bound : ℚ} (representable : Representable bound) (above : bound ≤ x) :
    bound ≤ round x := by
  rw [← round_eq representable]
  exact round_mono above

theorem representable_intCast {n : ℤ} (small : |n| < 2 ^ 53) : Representable n :=
  ⟨n, 0, by rw [zpow_zero, mul_one], small, by norm_num⟩

theorem representable_half {n : ℤ} (small : |n| < 2 ^ 53) : Representable (n / 2) :=
  ⟨n, -1, by rw [zpow_neg, zpow_one, div_eq_mul_inv], small, by norm_num⟩

theorem abs_natCast_lt {n : ℕ} (small : n < 2 ^ 53) : |(n : ℤ)| < 2 ^ 53 := by
  rw [Nat.abs_cast]
  exact_mod_cast small

theorem representable_natCast {n : ℕ} (small : n < 2 ^ 53) : Representable n := by
  simpa only [Int.cast_natCast] using representable_intCast (abs_natCast_lt small)

theorem representable_natHalf {n : ℕ} (small : n < 2 ^ 53) : Representable (n / 2) := by
  simpa only [Int.cast_natCast] using representable_half (abs_natCast_lt small)

theorem representable_one : Representable 1 := by
  exact_mod_cast representable_natCast (n := 1) (by norm_num)

theorem round_natCast {n : ℕ} (small : n < 2 ^ 53) : round n = n :=
  round_eq (representable_natCast small)

/-- The rounding of a normal number is off by half a unit of its last place. -/
theorem round_close {x : ℚ} (normal : (2 : ℚ) ^ (-1022 : ℤ) ≤ |x|) :
    |round x - x| ≤ |x| / 2 ^ 53 := by
  have positive : 0 < |x| := lt_of_lt_of_le (zpow_pos two_pos _) normal
  have log : -1022 ≤ Int.log 2 |x| :=
    (Int.zpow_le_iff_le_log Nat.one_lt_two positive).mp (by exact_mod_cast normal)
  have place : lastPlace x = Int.log 2 |x| - 52 := by
    unfold lastPlace
    omega
  have unit := unit_pos x
  have leading : (2 : ℚ) ^ Int.log 2 |x| ≤ |x| := by
    exact_mod_cast Int.zpow_log_le_self Nat.one_lt_two positive
  have half : 1 / 2 * (2 : ℚ) ^ lastPlace x = 2 ^ Int.log 2 |x| / 2 ^ 53 := by
    rw [place, zpow_sub₀ two_ne_zero]
    norm_num
    ring
  have scaled : round x - x = (roundEven (x / 2 ^ lastPlace x) - x / 2 ^ lastPlace x) *
      2 ^ lastPlace x := by
    rw [round, sub_mul, div_mul_cancel₀ _ (ne_of_gt unit)]
  calc |round x - x|
      = |roundEven (x / 2 ^ lastPlace x) - x / 2 ^ lastPlace x| * 2 ^ lastPlace x := by
        rw [scaled, abs_mul, abs_of_pos unit]
    _ ≤ 1 / 2 * 2 ^ lastPlace x :=
        mul_le_mul_of_nonneg_right (roundEven_close _) (le_of_lt unit)
    _ = 2 ^ Int.log 2 |x| / 2 ^ 53 := half
    _ ≤ |x| / 2 ^ 53 := div_le_div_of_nonneg_right leading (by positivity)

theorem round_natCast_close (n : ℕ) : |round n - n| ≤ n / 2 ^ 53 := by
  rcases Nat.eq_zero_or_pos n with rfl | positive
  · simp [round_zero]
  · have one : (1 : ℚ) ≤ n := by exact_mod_cast positive
    have whole : |(n : ℚ)| = n := Nat.abs_cast n
    have tiny : (2 : ℚ) ^ (-1022 : ℤ) ≤ 1 := zpow_le_one_of_nonpos₀ one_le_two (by norm_num)
    have close := round_close (x := n) (by rw [whole]; exact le_trans tiny one)
    rwa [whole] at close

/-- The quotient of two integers in doubles. -/
theorem round_div_close (a : ℕ) {b : ℕ} (positive : 0 < b) (small : b < 2 ^ 63) :
    |round (round a / round b) - a / b| ≤ a / b / 2 ^ 51 := by
  rcases Nat.eq_zero_or_pos a with rfl | nonzero
  · simp [round_zero]
  obtain ⟨top_below, top_above⟩ := abs_le.mp (round_natCast_close a)
  obtain ⟨bottom_below, bottom_above⟩ := abs_le.mp (round_natCast_close b)
  have a_pos : (1 : ℚ) ≤ a := by exact_mod_cast nonzero
  have b_pos : (1 : ℚ) ≤ b := by exact_mod_cast positive
  have b_lt : (b : ℚ) < 2 ^ 63 := by exact_mod_cast small
  have y_pos : 0 < round b := by linarith
  generalize round a = x at top_below top_above ⊢
  generalize round b = y at bottom_below bottom_above y_pos ⊢
  have exact : (a : ℚ) / b * b = a := div_mul_cancel₀ _ (by linarith)
  have ratio : x / y * y = x := div_mul_cancel₀ _ (ne_of_gt y_pos)
  have r_pos : 0 < x / y := div_pos (by linarith) y_pos
  have t_pos : 0 < (a : ℚ) / b := div_pos (by linarith) (by linarith)
  have normal : (2 : ℚ) ^ (-1022 : ℤ) ≤ |x / y| := by
    have least : (2 : ℚ) ^ (-64 : ℤ) ≤ x / y := by
      rw [le_div_iff₀ y_pos, zpow_neg, inv_mul_le_iff₀ (by positivity)]
      norm_num
      linarith
    rw [abs_of_pos r_pos]
    exact le_trans (zpow_le_zpow_right₀ one_le_two (by norm_num)) least
  obtain ⟨rounded_below, rounded_above⟩ := abs_le.mp (round_close normal)
  rw [abs_of_pos r_pos] at rounded_below rounded_above
  generalize round (x / y) = z at rounded_below rounded_above ⊢
  generalize x / y = r at *
  generalize (a : ℚ) / b = t at *
  -- with `a = t * b` and `x = r * y`, what the two roundings leave is a bound on `r / t`
  have low : r * (b - b / 2 ^ 53) ≤ r * y :=
    mul_le_mul_of_nonneg_left (by linarith) (le_of_lt r_pos)
  have high : r * y ≤ r * (b / 2 ^ 53 + b) :=
    mul_le_mul_of_nonneg_left (by linarith) (le_of_lt r_pos)
  have below : r * (1 - 1 / 2 ^ 53) ≤ t * (1 + 1 / 2 ^ 53) :=
    le_of_mul_le_mul_right (by linarith) (by linarith : (0 : ℚ) < b)
  have above : t * (1 - 1 / 2 ^ 53) ≤ r * (1 + 1 / 2 ^ 53) :=
    le_of_mul_le_mul_right (by linarith) (by linarith : (0 : ℚ) < b)
  rw [abs_le]
  constructor <;> linarith

/-- Terms of the series of the inverse hyperbolic tangent. -/
def atanhSum (z : ℚ) : ℕ → ℚ
  | 0 => 0
  | n + 1 => atanhSum z n + z ^ (2 * n + 1) / (2 * n + 1)

theorem atanhSum_zero (n : ℕ) : atanhSum 0 n = 0 := by
  induction n with
  | zero => rfl
  | succ n ih => rw [atanhSum, ih, zero_pow (Nat.succ_ne_zero _), zero_div, add_zero]

theorem atanhSum_mono {z w : ℚ} (nonneg : 0 ≤ z) (ordered : z ≤ w) (n : ℕ) :
    atanhSum z n ≤ atanhSum w n := by
  induction n with
  | zero => exact le_refl 0
  | succ n ih =>
    have power : z ^ (2 * n + 1) ≤ w ^ (2 * n + 1) := pow_le_pow_left₀ nonneg ordered _
    exact add_le_add ih (div_le_div_of_nonneg_right power (by positivity))

def lnTwo : ℚ := 2 * atanhSum (1 / 3) 40

/-- What is left of a number without its power of two. -/
def mantissa (x : ℚ) : ℚ := x / 2 ^ Int.log 2 x

/-- The argument of the series for a mantissa. -/
def seriesArgument (m : ℚ) : ℚ := (m - 1) / (m + 1)

/-- The logarithm to more bits than a double has. -/
def ln (x : ℚ) : ℚ := Int.log 2 x * lnTwo + 2 * atanhSum (seriesArgument (mantissa x)) 40

def log (x : ℚ) : ℚ := round (ln x)

theorem mantissa_bounds {x : ℚ} (positive : 0 < x) : 1 ≤ mantissa x ∧ mantissa x < 2 := by
  have unit : (0 : ℚ) < 2 ^ Int.log 2 x := zpow_pos two_pos _
  have low : (2 : ℚ) ^ Int.log 2 x ≤ x := by
    exact_mod_cast Int.zpow_log_le_self Nat.one_lt_two positive
  have next : x < (2 : ℚ) ^ (Int.log 2 x + 1) := by
    exact_mod_cast Int.lt_zpow_succ_log_self Nat.one_lt_two x
  rw [zpow_add_one₀ two_ne_zero, mul_comm] at next
  exact ⟨(one_le_div₀ unit).mpr low, (div_lt_iff₀ unit).mpr next⟩

theorem seriesArgument_mono {m n : ℚ} (one_le : 1 ≤ m) (ordered : m ≤ n) :
    0 ≤ seriesArgument m ∧ seriesArgument m ≤ seriesArgument n := by
  constructor
  · exact div_nonneg (by linarith) (by linarith)
  · rw [seriesArgument, seriesArgument, div_le_div_iff₀ (by linarith) (by linarith)]
    linarith

/-- Between two powers of two the logarithm is between theirs. -/
theorem ln_bounds {x : ℚ} (positive : 0 < x) :
    Int.log 2 x * lnTwo ≤ ln x ∧ ln x ≤ (Int.log 2 x + 1) * lnTwo := by
  obtain ⟨least, most⟩ := mantissa_bounds positive
  obtain ⟨nonneg, _⟩ := seriesArgument_mono least (le_refl (mantissa x))
  have third : seriesArgument (mantissa x) ≤ 1 / 3 :=
    le_trans (seriesArgument_mono least (le_of_lt most)).2 (by norm_num [seriesArgument])
  have lower := atanhSum_mono (le_refl 0) nonneg 40
  have upper := atanhSum_mono nonneg third 40
  rw [atanhSum_zero] at lower
  unfold ln lnTwo
  constructor <;> linarith

theorem lnTwo_nonneg : 0 ≤ lnTwo := by
  have sum := atanhSum_mono (le_refl 0) (by norm_num : (0 : ℚ) ≤ 1 / 3) 40
  rw [atanhSum_zero] at sum
  unfold lnTwo
  linarith

theorem ln_mono {x y : ℚ} (positive : 0 < x) (ordered : x ≤ y) : ln x ≤ ln y := by
  have logs := Int.log_mono_right (b := 2) positive ordered
  rcases Int.lt_or_eq_of_le logs with less | same
  · have whole : ((Int.log 2 x + 1 : ℤ) : ℚ) ≤ (Int.log 2 y : ℤ) := by exact_mod_cast less
    rw [Int.cast_add, Int.cast_one] at whole
    calc ln x ≤ (Int.log 2 x + 1) * lnTwo := (ln_bounds positive).2
      _ ≤ Int.log 2 y * lnTwo := mul_le_mul_of_nonneg_right whole lnTwo_nonneg
      _ ≤ ln y := (ln_bounds (lt_of_lt_of_le positive ordered)).1
  · have parts : mantissa x ≤ mantissa y := by
      rw [mantissa, mantissa, same]
      exact div_le_div_of_nonneg_right ordered (le_of_lt (zpow_pos two_pos _))
    obtain ⟨nonneg, arguments⟩ := seriesArgument_mono (mantissa_bounds positive).1 parts
    have sums := atanhSum_mono nonneg arguments 40
    unfold ln
    rw [same]
    linarith

theorem log_mono {x y : ℚ} (positive : 0 < x) (ordered : x ≤ y) : log x ≤ log y :=
  round_mono (ln_mono positive ordered)

theorem log_nonneg {x : ℚ} (one_le : 1 ≤ x) : 0 ≤ log x := by
  have logs := Int.log_mono_right (b := 2) (zero_lt_one' ℚ) one_le
  rw [Int.log_one_right] at logs
  have whole : (0 : ℚ) ≤ (Int.log 2 x : ℤ) := by exact_mod_cast logs
  exact round_nonneg (le_trans (mul_nonneg whole lnTwo_nonneg) (ln_bounds (by linarith)).1)

end YcsbCloud.Library.Binary64
