import Mathlib.Algebra.Order.Ring.Nat
import Mathlib.Algebra.Ring.Nat
import Mathlib.Data.Nat.ModEq
import Mathlib.Tactic.Ring

/-!
# Fixed-width little-endian octets

`octets w n` is the memory image of an unsigned `w`-byte integer on a
little-endian host and `value` reads an image back. The two are inverse on the
width's own domain, so a fixed-width field has exactly one encoding.
-/
namespace YcsbCloud.Library.LittleEndian

def octets : Nat → Nat → List UInt8
  | 0, _ => []
  | width + 1, n => UInt8.ofNat n :: octets width (n / 256)

def value : List UInt8 → Nat
  | [] => 0
  | b :: rest => b.toNat + 256 * value rest

@[simp] theorem octets_length (width n : Nat) : (octets width n).length = width := by
  induction width generalizing n with
  | zero => rfl
  | succ width ih => simp [octets, ih]

/-- Reading back what was written loses only the bits above the width. -/
theorem value_octets (width n : Nat) : value (octets width n) = n % 256 ^ width := by
  induction width generalizing n with
  | zero => simp [octets, value, Nat.mod_one]
  | succ width ih =>
    have step : 256 ^ (width + 1) = 256 * 256 ^ width := Nat.pow_succ'
    rw [octets, value, ih, UInt8.toNat_ofNat', step, Nat.mod_mul]

theorem value_octets_of_lt (width n : Nat) (bound : n < 256 ^ width) :
    value (octets width n) = n := by
  rw [value_octets, Nat.mod_eq_of_lt bound]

theorem value_lt (image : List UInt8) : value image < 256 ^ image.length := by
  induction image with
  | nil => simp [value]
  | cons b rest ih =>
    have hb := b.toNat_lt
    simp only [value, List.length_cons, Nat.pow_succ']
    omega

theorem value_take_lt (image : List UInt8) (width : Nat) :
    value (image.take width) < 256 ^ width :=
  (value_lt _).trans_le (Nat.pow_le_pow_right (by decide) (List.length_take_le ..))

/-- Every image is the encoding of the number it reads as. -/
theorem octets_value (image : List UInt8) : octets image.length (value image) = image := by
  induction image with
  | nil => rfl
  | cons b rest ih =>
    have hb := b.toNat_lt
    have head : UInt8.ofNat (b.toNat + 256 * value rest) = b := by
      apply UInt8.toNat_inj.mp
      rw [UInt8.toNat_ofNat']
      omega
    have tail : (b.toNat + 256 * value rest) / 256 = value rest := by omega
    simp only [value, List.length_cons, octets, head, tail, ih]

theorem octets_value_take {image : List UInt8} {width : Nat} (room : width ≤ image.length) :
    octets width (value (image.take width)) = image.take width := by
  have length := List.length_take_of_le room
  have same := octets_value (image.take width)
  rwa [length] at same

/-- The first image of two in a row has the low octets. -/
theorem value_append (low high : List UInt8) :
    value (low ++ high) = value low + 256 ^ low.length * value high := by
  induction low with
  | nil => rw [List.nil_append, value, List.length_nil, Nat.pow_zero, Nat.one_mul, Nat.zero_add]
  | cons b rest ih =>
    rw [List.cons_append, value, ih, value, List.length_cons, Nat.pow_succ']
    ring

/-- Two images in a row, put together by a shift. -/
theorem value_append_or (low high : List UInt8) :
    value (low ++ high) = value low ||| value high <<< (8 * low.length) := by
  have small : value low < 2 ^ (8 * low.length) := by
    rw [Nat.pow_mul]
    exact value_lt low
  rw [value_append, Nat.or_comm, ← Nat.shiftLeft_add_eq_or_of_lt small, Nat.shiftLeft_eq,
    Nat.pow_mul, Nat.mul_comm, Nat.add_comm]

/-- One more octet at the high end. -/
theorem value_concat (low : List UInt8) (b : UInt8) :
    value (low ++ [b]) = value low ||| b.toNat <<< (8 * low.length) := by
  rw [value_append_or]
  rfl

end YcsbCloud.Library.LittleEndian
