import Mathlib.Data.List.Basic
import Mathlib.Data.List.TakeWhile
import Mathlib.Logic.Function.Basic

/-!
# Strings of the driver and of the benchmark core

A `std::string` is a list of octets of any content, NUL included. A
`const char *` argument is read up to its first NUL, so it carries that fact in
its type. `std::to_string` prints an unsigned number in decimal.
-/
namespace YcsbCloud.Source

abbrev Bytes := List UInt8

/-- The octets of a literal written with ASCII characters. -/
def ascii (text : List Char) : Bytes := text.map fun c => UInt8.ofNat c.toNat

/-- What a callee sees of a `const char *`: octets before the terminator. -/
abbrev CStr := { text : Bytes // 0 ∉ text }

def NulFree (text : Bytes) : Prop := 0 ∉ text

instance (text : Bytes) : Decidable (NulFree text) := inferInstanceAs (Decidable (0 ∉ text))

/-- `std::string::c_str` as its reader sees it. -/
def cStr (text : Bytes) : CStr :=
  ⟨text.takeWhile (· != 0), fun member => by
    have nonzero := List.mem_takeWhile_imp member
    simp at nonzero⟩

theorem cStr_val (text : Bytes) (clean : NulFree text) : (cStr text).val = text := by
  apply List.takeWhile_eq_self_iff.mpr
  intro b member
  simp only [bne_iff_ne]
  rintro rfl
  exact clean member

theorem cStr_eq (text : Bytes) (clean : NulFree text) : cStr text = ⟨text, clean⟩ :=
  Subtype.ext (cStr_val text clean)

@[simp] theorem cStr_coe (text : CStr) : cStr text.val = text := cStr_eq text.val text.property

theorem cStr_injective_on (left right : Bytes) (hl : NulFree left) (hr : NulFree right)
    (same : cStr left = cStr right) : left = right := by
  rw [← cStr_val left hl, ← cStr_val right hr, same]

theorem NulFree.append {left right : Bytes} (hl : NulFree left) (hr : NulFree right) :
    NulFree (left ++ right) := by
  simp only [NulFree, List.mem_append, not_or] at *
  exact ⟨hl, hr⟩

/-- `std::to_string` of an unsigned integer. -/
def stdToString (n : Nat) : Bytes := ascii (Nat.toDigits 10 n)

/-- A decimal digit as an octet, read back as a character. -/
private theorem digit_readback (c : Char) (digit : c.isDigit) :
    Char.ofNat (UInt8.ofNat c.toNat).toNat = c := by
  have upper : c.toNat ≤ 57 := by
    simp only [Char.isDigit, Bool.and_eq_true, decide_eq_true_eq] at digit
    exact digit.2
  have small : c.toNat < 256 := by omega
  rw [UInt8.toNat_ofNat', Nat.mod_eq_of_lt small, Char.ofNat_toNat]

private theorem ascii_readback (digits : List Char) (all : ∀ c ∈ digits, c.isDigit) :
    (ascii digits).map (fun b => Char.ofNat b.toNat) = digits := by
  rw [ascii, List.map_map]
  calc
    digits.map _ = digits.map id :=
      List.map_congr_left fun c member => digit_readback c (all c member)
    _ = digits := List.map_id digits

theorem stdToString_injective : Function.Injective stdToString := by
  intro n m same
  have isDigit (k : Nat) : ∀ c ∈ Nat.toDigits 10 k, c.isDigit :=
    fun c member => Nat.isDigit_of_mem_toDigits (by decide) (by decide) member
  have digits : Nat.toDigits 10 n = Nat.toDigits 10 m := by
    rw [← ascii_readback _ (isDigit n), ← ascii_readback _ (isDigit m)]
    exact congrArg _ same
  rw [← Nat.ofDigitChars_ten_toDigits (n := n), digits, Nat.ofDigitChars_ten_toDigits]

theorem stdToString_nulFree (n : Nat) : NulFree (stdToString n) := by
  intro member
  obtain ⟨c, inDigits, zero⟩ := List.mem_map.mp member
  have digit := Nat.isDigit_of_mem_toDigits (by decide) (by decide) inDigits
  have readback := digit_readback c digit
  rw [zero] at readback
  subst readback
  exact absurd digit (by decide)

/-- A printed number has decimal digits only. -/
theorem stdToString_le (n : Nat) (b : UInt8) (member : b ∈ stdToString n) : b ≤ 57 := by
  obtain ⟨c, inDigits, rfl⟩ := List.mem_map.mp member
  have digit := Nat.isDigit_of_mem_toDigits (by decide) (by decide) inDigits
  simp only [Char.isDigit, Bool.and_eq_true, decide_eq_true_eq] at digit
  have upper : c.toNat ≤ 57 := digit.2
  rw [UInt8.le_iff_toNat_le, UInt8.toNat_ofNat', Nat.mod_eq_of_lt (by omega)]
  exact upper

/-- Literals followed by a printed number differ when the numbers do. -/
theorem append_stdToString_inj (literal : Bytes) (n m : Nat) :
    literal ++ stdToString n = literal ++ stdToString m ↔ n = m := by
  rw [List.append_cancel_left_eq]
  exact stdToString_injective.eq_iff

end YcsbCloud.Source
