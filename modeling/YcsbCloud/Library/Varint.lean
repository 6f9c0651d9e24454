import Mathlib.Algebra.Order.Ring.Nat
import Mathlib.Tactic.Ring

/-!
# Numbers in groups of seven bits

A number is written as octets of seven bits each, the lowest first, where an octet of 128
or more says that another follows. The number of groups is bounded, and the octet after the
last group holds whatever is left, so that `n` groups and that octet hold `7 * n + 8` bits.
A reader takes octets that are not there for zero.
-/
namespace YcsbCloud.Library.Varint

/-- The octets of a number in at most so many groups and one more octet. -/
def octets : ℕ → ℕ → List ℕ
  | 0, v => [v]
  | groups + 1, v => if v < 128 then [v] else (v % 128 + 128) :: octets groups (v / 128)

/-- The number at the head of octets, and how many octets it takes. -/
def number : ℕ → List ℕ → ℕ × ℕ
  | 0, os => (os.headD 0, 1)
  | groups + 1, os =>
    if os.headD 0 < 128 then (os.headD 0, 1)
    else (os.headD 0 - 128 + 128 * (number groups os.tail).1, (number groups os.tail).2 + 1)

theorem number_octets (groups v : ℕ) (rest : List ℕ) :
    number groups (octets groups v ++ rest) = (v, (octets groups v).length) := by
  induction groups generalizing v with
  | zero => rfl
  | succ groups ih =>
    rw [octets]
    split
    next small =>
      rw [number, List.singleton_append, List.headD_cons, if_pos small]
      rfl
    next large =>
      rw [number, List.cons_append, List.headD_cons, List.tail_cons, if_neg (by omega), ih,
        List.length_cons]
      congr 1
      omega

theorem octets_length_pos (groups v : ℕ) : 0 < (octets groups v).length := by
  cases groups with
  | zero => exact Nat.one_pos
  | succ groups =>
    rw [octets]
    split <;> simp

theorem octets_length_le (groups v : ℕ) : (octets groups v).length ≤ groups + 1 := by
  induction groups generalizing v with
  | zero => exact Nat.le_refl 1
  | succ groups ih =>
    rw [octets]
    split
    · simp
    · exact Nat.succ_le_succ (ih (v / 128))

theorem number_length_pos (groups : ℕ) (os : List ℕ) : 0 < (number groups os).2 := by
  cases groups with
  | zero => exact Nat.one_pos
  | succ groups =>
    rw [number]
    split <;> simp

end YcsbCloud.Library.Varint
