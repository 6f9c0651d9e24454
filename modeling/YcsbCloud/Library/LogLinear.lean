import Mathlib.Algebra.Order.Ring.Nat
import Mathlib.Data.Nat.Log
import Mathlib.Order.GaloisConnection.Defs
import Mathlib.Order.Monotone.Basic

/-!
# Log-linear scales

A scale cuts the natural numbers into buckets of doubling width and each bucket into
slots of equal width, and numbers the slots. The first bucket has twice the slots of the
others, for it has no smaller one below it. Numbering and lowest number of a slot
form a Galois connection, from which the order of the slots follows.
-/
namespace YcsbCloud.Library.LogLinear

/-- The number of slots of a bucket and the width of the first slots, as powers of two. -/
structure Scale where
  half : ℕ
  unit : ℕ

namespace Scale

variable (s : Scale)

/-- The bucket of a number. -/
def level (v : ℕ) : ℕ := v.log2 - (s.unit + s.half)

/-- The slot of a number in its bucket. -/
def slot (v : ℕ) : ℕ := v / 2 ^ (s.level v + s.unit)

/-- The slot of a number among all slots. -/
def position (v : ℕ) : ℕ := s.level v * 2 ^ s.half + s.slot v

def levelAt (i : ℕ) : ℕ := i / 2 ^ s.half - 1

def slotAt (i : ℕ) : ℕ := i - s.levelAt i * 2 ^ s.half

/-- The numbers in a slot. -/
def width (i : ℕ) : ℕ := 2 ^ (s.levelAt i + s.unit)

/-- The lowest number of a slot. -/
def lowest (i : ℕ) : ℕ := s.slotAt i * s.width i

theorem slot_lt (v : ℕ) : s.slot v < 2 ^ (s.half + 1) := by
  have below : v < 2 ^ (v.log2 + 1) := Nat.lt_log2_self
  have deep : v.log2 + 1 ≤ s.half + 1 + (s.level v + s.unit) := by
    unfold level
    omega
  rw [slot, Nat.div_lt_iff_lt_mul (Nat.two_pow_pos _), ← Nat.pow_add]
  exact Nat.lt_of_lt_of_le below (Nat.pow_le_pow_right Nat.two_pos deep)

theorem le_slot {v : ℕ} (above : 0 < s.level v) : 2 ^ s.half ≤ s.slot v := by
  have deep : s.half + (s.level v + s.unit) = v.log2 := by
    unfold level at above ⊢
    omega
  have nonzero : v ≠ 0 := by
    rintro rfl
    simp [level] at above
  rw [slot, Nat.le_div_iff_mul_le (Nat.two_pow_pos _), ← Nat.pow_add, deep]
  exact Nat.log2_self_le nonzero

theorem levelAt_position (v : ℕ) : s.levelAt (s.position v) = s.level v := by
  have bounded := s.slot_lt v
  rw [Nat.pow_succ] at bounded
  have half_pos : 0 < 2 ^ s.half := Nat.two_pow_pos _
  have split : s.position v / 2 ^ s.half = s.level v + s.slot v / 2 ^ s.half := by
    rw [position, Nat.add_comm, Nat.add_mul_div_right _ _ half_pos, Nat.add_comm]
  rw [levelAt, split]
  rcases Nat.eq_zero_or_pos (s.level v) with zero | above
  · have low : s.slot v / 2 ^ s.half < 2 := by
      rwa [Nat.div_lt_iff_lt_mul half_pos, Nat.mul_comm]
    omega
  · have one : s.slot v / 2 ^ s.half = 1 := by
      apply Nat.div_eq_of_lt_le
      · rw [Nat.one_mul]
        exact s.le_slot above
      · omega
    omega

theorem slotAt_position (v : ℕ) : s.slotAt (s.position v) = s.slot v := by
  rw [slotAt, levelAt_position, position, Nat.add_sub_cancel_left]

theorem width_position (v : ℕ) : s.width (s.position v) = 2 ^ (s.level v + s.unit) := by
  rw [width, levelAt_position]

theorem lowest_position (v : ℕ) :
    s.lowest (s.position v) = s.slot v * 2 ^ (s.level v + s.unit) := by
  rw [lowest, slotAt_position, width_position]

theorem levelAt_mul_le (i : ℕ) : s.levelAt i * 2 ^ s.half ≤ i :=
  Nat.le_trans (Nat.mul_le_mul_right _ (Nat.sub_le _ _)) (Nat.div_mul_le_self i _)

/-- A slot ends where the next one starts. -/
theorem lowest_succ (i : ℕ) : s.lowest (i + 1) = s.lowest i + s.width i := by
  have below := s.levelAt_mul_le i
  by_cases same : s.levelAt (i + 1) = s.levelAt i
  · have next : s.slotAt (i + 1) = s.slotAt i + 1 := by
      rw [slotAt, slotAt, same]
      omega
    rw [lowest, lowest, width, width, next, same, Nat.add_mul, Nat.one_mul]
  · have half_pos : 0 < 2 ^ s.half := Nat.two_pow_pos _
    have parts := Nat.div_add_mod i (2 ^ s.half)
    have small := Nat.mod_lt i half_pos
    have step : (i + 1) / 2 ^ s.half = i / 2 ^ s.half + 1 := by
      rw [Nat.succ_div]
      split
      · rfl
      next inside =>
        rw [levelAt, levelAt, Nat.succ_div, if_neg inside, Nat.add_zero] at same
        exact absurd rfl same
    have above : 1 ≤ i / 2 ^ s.half := by
      rw [levelAt, levelAt, step] at same
      omega
    have raised : s.levelAt (i + 1) = s.levelAt i + 1 := by
      rw [levelAt, levelAt, step]
      omega
    -- the last slot of a bucket: the number of the next one is a multiple of the half
    have full : i + 1 = (s.levelAt i + 1) * 2 ^ s.half + 2 ^ s.half := by
      have whole : i % 2 ^ s.half + 1 = 2 ^ s.half := by
        by_contra partly
        have inside : (i + 1) / 2 ^ s.half = i / 2 ^ s.half := by
          apply Nat.div_eq_of_lt_le
          · rw [Nat.mul_comm]
            omega
          · rw [Nat.add_mul, Nat.one_mul, Nat.mul_comm]
            omega
        omega
      have quotient : s.levelAt i + 1 = i / 2 ^ s.half := by
        unfold levelAt
        omega
      rw [quotient, Nat.mul_comm]
      omega
    have next : s.slotAt (i + 1) = 2 ^ s.half := by
      rw [slotAt, raised, full, Nat.add_sub_cancel_left]
    have last : s.slotAt i + 1 = 2 * 2 ^ s.half := by
      rw [Nat.add_mul, Nat.one_mul] at full
      unfold slotAt
      omega
    calc s.lowest (i + 1) = 2 ^ s.half * (2 * s.width i) := by
          rw [lowest, next, width, raised, width, Nat.add_right_comm, Nat.pow_succ']
      _ = (s.slotAt i + 1) * s.width i := by
          rw [last, Nat.mul_left_comm, ← Nat.mul_assoc]
      _ = s.lowest i + s.width i := by
          rw [Nat.add_mul, Nat.one_mul, lowest]

theorem width_pos (i : ℕ) : 0 < s.width i := Nat.two_pow_pos _

theorem lowest_strictMono : StrictMono s.lowest := by
  apply strictMono_nat_of_lt_succ
  intro i
  rw [lowest_succ]
  exact Nat.lt_add_of_pos_right (s.width_pos i)

theorem lowest_position_le (v : ℕ) : s.lowest (s.position v) ≤ v := by
  rw [lowest_position, slot]
  exact Nat.div_mul_le_self _ _

theorem lt_lowest_succ_position (v : ℕ) : v < s.lowest (s.position v + 1) := by
  rw [lowest_succ, lowest_position, width_position, slot]
  exact Nat.lt_div_mul_add (Nat.two_pow_pos _)

/-- A slot starts at or below a number exactly if it is not after that number's slot. -/
theorem lowest_le_iff (i v : ℕ) : s.lowest i ≤ v ↔ i ≤ s.position v := by
  constructor
  · intro starts
    have before := Nat.lt_of_le_of_lt starts (s.lt_lowest_succ_position v)
    exact Nat.le_of_lt_succ (s.lowest_strictMono.lt_iff_lt.mp before)
  · intro ordered
    exact Nat.le_trans (s.lowest_strictMono.monotone ordered) (s.lowest_position_le v)

theorem connection : GaloisConnection s.lowest s.position := s.lowest_le_iff

theorem position_mono : Monotone s.position := s.connection.monotone_u

theorem position_lowest (i : ℕ) : s.position (s.lowest i) = i := by
  apply Nat.le_antisymm
  · exact s.lowest_strictMono.le_iff_le.mp (s.lowest_position_le (s.lowest i))
  · exact (s.lowest_le_iff i _).mp (Nat.le_refl _)

@[simp] theorem position_zero : s.position 0 = 0 := by
  rw [← Nat.le_zero]
  exact s.lowest_strictMono.le_iff_le.mp (Nat.le_trans (s.lowest_position_le 0) (Nat.zero_le _))

theorem position_lt_iff (v i : ℕ) : s.position v < i ↔ v < s.lowest i := by
  rw [← Nat.not_le, ← Nat.not_le, s.lowest_le_iff]

/-- The numbers of a slot. -/
theorem position_eq_iff (v i : ℕ) :
    s.position v = i ↔ s.lowest i ≤ v ∧ v < s.lowest (i + 1) := by
  rw [s.lowest_le_iff, ← s.position_lt_iff]
  omega

/-- Beyond the first bucket a slot is narrow against its numbers. -/
theorem width_mul_le (i : ℕ) : s.width i * 2 ^ s.half ≤ max (s.lowest i) (2 ^ (s.unit + s.half)) := by
  rcases Nat.eq_zero_or_pos (s.levelAt i) with zero | above
  · rw [width, zero, Nat.zero_add, ← Nat.pow_add]
    exact Nat.le_max_right _ _
  · refine Nat.le_trans ?_ (Nat.le_max_left _ _)
    rw [lowest, Nat.mul_comm]
    apply Nat.mul_le_mul_right
    have upper : s.levelAt i + 1 = i / 2 ^ s.half := by
      unfold levelAt at above ⊢
      omega
    have whole := Nat.div_mul_le_self i (2 ^ s.half)
    rw [← upper, Nat.add_mul, Nat.one_mul] at whole
    unfold slotAt
    omega

/-- Where the buckets start. -/
theorem lowest_bucket (l : ℕ) : s.lowest ((l + 1) * 2 ^ s.half) = 2 ^ (s.half + l + s.unit) := by
  have level : s.levelAt ((l + 1) * 2 ^ s.half) = l := by
    rw [levelAt, Nat.mul_div_cancel _ (Nat.two_pow_pos _), Nat.add_sub_cancel]
  have slot : s.slotAt ((l + 1) * 2 ^ s.half) = 2 ^ s.half := by
    rw [slotAt, level, Nat.add_mul, Nat.one_mul, Nat.add_sub_cancel_left]
  rw [lowest, slot, width, level, ← Nat.pow_add, Nat.add_assoc]

/-- The slots up to a power of two end at it. -/
theorem lowest_succ_le_pow {v n : ℕ} (deep : s.half + s.unit ≤ n) (small : v < 2 ^ n) :
    s.lowest (s.position v + 1) ≤ 2 ^ n := by
  have bound := s.lowest_bucket (n - (s.half + s.unit))
  rw [show s.half + (n - (s.half + s.unit)) + s.unit = n by omega] at bound
  rw [← bound] at small ⊢
  exact s.lowest_strictMono.monotone ((s.position_lt_iff ..).mpr small)

end Scale

end YcsbCloud.Library.LogLinear
