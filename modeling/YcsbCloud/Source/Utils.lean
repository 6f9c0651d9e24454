import Mathlib.Data.Nat.ModEq
import YcsbCloud.Source.Strings

/-!
# `core/utils.h`: the FNV hash

Unsigned 64-bit arithmetic is arithmetic modulo `2 ^ 64`.
-/
namespace YcsbCloud.Source.Utils

def kFNVOffsetBasis64 : Nat := 0xCBF29CE484222325
def kFNVPrime64 : Nat := 1099511628211

/-- The loop body, `rounds` more times. -/
def fnvLoop : Nat → Nat → Nat → Nat
  | 0, hash, _ => hash
  | rounds + 1, hash, val =>
    fnvLoop rounds (((hash ^^^ (val &&& 0xff)) * kFNVPrime64) % 2 ^ 64) (val >>> 8)

def fnvHash64 (val : Nat) : Nat := fnvLoop 8 kFNVOffsetBasis64 val

def hash (val : Nat) : Nat := fnvHash64 val

/-- One round of the loop on one octet. -/
def fnvRound (hash octet : Nat) : Nat := ((hash ^^^ octet) * kFNVPrime64) % 2 ^ 64

theorem fnvLoop_succ (rounds hash val : Nat) :
    fnvLoop (rounds + 1) hash val = fnvLoop rounds (fnvRound hash (val % 256)) (val / 256) := by
  have octet : val &&& 0xff = val % 256 := Nat.and_two_pow_sub_one_eq_mod val 8
  have rest : val >>> 8 = val / 256 := Nat.shiftRight_eq_div_pow val 8
  rw [fnvLoop, octet, rest]
  rfl

theorem fnvRound_lt (hash octet : Nat) : fnvRound hash octet < 2 ^ 64 :=
  Nat.mod_lt _ (by decide)

/-- An octet changes only the low octet of what it is combined with. -/
theorem xor_octet_div (hash octet : Nat) (small : octet < 256) :
    (hash ^^^ octet) / 256 = hash / 256 := by
  have split := Nat.xor_div_two_pow (a := hash) (b := octet) (n := 8)
  rw [show (2 : Nat) ^ 8 = 256 by rfl, Nat.div_eq_of_lt small, Nat.xor_zero] at split
  exact split

theorem xor_octet_lt (hash octet : Nat) (bound : hash < 2 ^ 64) (small : octet < 256) :
    hash ^^^ octet < 2 ^ 64 :=
  Nat.xor_lt_two_pow bound (by omega)

/-- The prime is odd, so a round loses nothing of what it multiplies. -/
theorem fnvRound_cancel (hash hash' octet octet' : Nat) (bound : hash < 2 ^ 64)
    (bound' : hash' < 2 ^ 64) (small : octet < 256) (small' : octet' < 256)
    (same : fnvRound hash octet = fnvRound hash' octet') : hash ^^^ octet = hash' ^^^ octet' := by
  have cancelled : hash ^^^ octet ≡ hash' ^^^ octet' [MOD 2 ^ 64] :=
    Nat.ModEq.cancel_right_of_coprime (by decide) same
  exact Nat.ModEq.eq_of_lt_of_lt cancelled (xor_octet_lt _ _ bound small)
    (xor_octet_lt _ _ bound' small')

/-- Rounds on the high octets, all zero, keep two hashes apart. -/
theorem fnvLoop_zero_inj (rounds hash hash' : Nat) (bound : hash < 2 ^ 64)
    (bound' : hash' < 2 ^ 64) (same : fnvLoop rounds hash 0 = fnvLoop rounds hash' 0) :
    hash = hash' := by
  induction rounds generalizing hash hash' with
  | zero => exact same
  | succ rounds ih =>
    rw [fnvLoop_succ, fnvLoop_succ] at same
    have earlier := ih _ _ (fnvRound_lt _ _) (fnvRound_lt _ _) same
    have kept := fnvRound_cancel hash hash' 0 0 bound bound' (by decide) (by decide) earlier
    simpa only [Nat.xor_zero] using kept

/-- How a round moves two hashes apart: the difference is multiplied by the prime,
up to wrap-around, after a change by the two low octets. No change from equal
hashes means equal octets. -/
theorem fnvRound_difference (g h octet octet' : Nat) (bound : g < 2 ^ 64) (bound' : h < 2 ^ 64)
    (small : octet < 256) (small' : octet' < 256) :
    ∃ change wraps : Int, -510 ≤ change ∧ change ≤ 510 ∧
      (fnvRound g octet : Int) - fnvRound h octet' =
        (2 ^ 40 + 435) * (g - h + change) + 2 ^ 64 * wraps ∧
      (fnvRound g octet = fnvRound h octet' → (g : Int) - h + change = 0) ∧
      (g = h → change = 0 → octet = octet') := by
  have high := xor_octet_div g octet small
  have high' := xor_octet_div h octet' small'
  have cancel := fnvRound_cancel g h octet octet' bound bound' small small'
  have prime : kFNVPrime64 = 2 ^ 40 + 435 := by decide
  refine ⟨((g ^^^ octet : Nat) : Int) - (h ^^^ octet' : Nat) - (g - h),
    ((h ^^^ octet') * (2 ^ 40 + 435) / 2 ^ 64 : Nat) -
      ((g ^^^ octet) * (2 ^ 40 + 435) / 2 ^ 64 : Nat), ?_, ?_, ?_, ?_, ?_⟩
  · omega
  · omega
  · unfold fnvRound
    rw [prime]
    omega
  · intro same
    rw [cancel same]
    omega
  · intro equal unchanged
    subst equal
    have combined : g ^^^ octet = g ^^^ octet' := by omega
    calc
      octet = g ^^^ (g ^^^ octet) := by rw [← Nat.xor_assoc, Nat.xor_self, Nat.zero_xor]
      _ = g ^^^ (g ^^^ octet') := by rw [combined]
      _ = octet' := by rw [← Nat.xor_assoc, Nat.xor_self, Nat.zero_xor]

/-- The prime is `2 ^ 40 + 435`, so small changes cannot cancel over four rounds:
their weights split into a multiple of `2 ^ 40` and a part below it. -/
theorem changes_eq_zero (c₀ c₁ c₂ c₃ d₁ d₂ d₃ w₁ w₂ w₃ : Int) (h₀ : -510 ≤ c₀ ∧ c₀ ≤ 510)
    (h₁ : -510 ≤ c₁ ∧ c₁ ≤ 510) (h₂ : -510 ≤ c₂ ∧ c₂ ≤ 510) (h₃ : -510 ≤ c₃ ∧ c₃ ≤ 510)
    (round₁ : d₁ = (2 ^ 40 + 435) * c₀ + 2 ^ 64 * w₁)
    (round₂ : d₂ = (2 ^ 40 + 435) * (d₁ + c₁) + 2 ^ 64 * w₂)
    (round₃ : d₃ = (2 ^ 40 + 435) * (d₂ + c₂) + 2 ^ 64 * w₃) (round₄ : d₃ + c₃ = 0) :
    c₀ = 0 ∧ c₁ = 0 ∧ c₂ = 0 ∧ c₃ = 0 := by
  obtain ⟨wraps, cancel⟩ : ∃ wraps : Int, 2 ^ 40 * (567675 * c₀ + 870 * c₁ + c₂) +
      (82312875 * c₀ + 189225 * c₁ + 435 * c₂ + c₃) = 2 ^ 64 * wraps := by
    refine ⟨-((2 ^ 40 + 435) ^ 2 * w₁ + (2 ^ 40 + 435) * w₂ + w₃ + 2 ^ 16 * c₁ +
      (2 ^ 56 + 1305 * 2 ^ 16) * c₀), ?_⟩
    omega
  have low : 82312875 * c₀ + 189225 * c₁ + 435 * c₂ + c₃ = 0 := by omega
  have first : -1 ≤ c₀ ∧ c₀ ≤ 1 := by omega
  have high : 567675 * c₀ + 870 * c₁ + c₂ = 2 ^ 24 * wraps := by omega
  have cases : c₀ = -1 ∨ c₀ = 0 ∨ c₀ = 1 := by omega
  rcases cases with rfl | rfl | rfl
  · have near : c₁ = 434 ∨ c₁ = 435 ∨ c₁ = 436 := by omega
    rcases near with rfl | rfl | rfl <;> omega
  · have near : c₁ = -1 ∨ c₁ = 0 ∨ c₁ = 1 := by omega
    rcases near with rfl | rfl | rfl <;> omega
  · have near : c₁ = -436 ∨ c₁ = -435 ∨ c₁ = -434 := by omega
    rcases near with rfl | rfl | rfl <;> omega

/-- Four rounds on octets lose nothing, wherever they start. -/
theorem fnvRounds_injective (basis a₀ a₁ a₂ a₃ b₀ b₁ b₂ b₃ : Nat) (start : basis < 2 ^ 64)
    (small : a₀ < 256 ∧ a₁ < 256 ∧ a₂ < 256 ∧ a₃ < 256)
    (small' : b₀ < 256 ∧ b₁ < 256 ∧ b₂ < 256 ∧ b₃ < 256)
    (same : fnvRound (fnvRound (fnvRound (fnvRound basis a₀) a₁) a₂) a₃ =
      fnvRound (fnvRound (fnvRound (fnvRound basis b₀) b₁) b₂) b₃) :
    a₀ = b₀ ∧ a₁ = b₁ ∧ a₂ = b₂ ∧ a₃ = b₃ := by
  obtain ⟨c₀, w₁, lower₀, upper₀, round₁, _, octet₀⟩ :=
    fnvRound_difference basis basis a₀ b₀ start start small.1 small'.1
  obtain ⟨c₁, w₂, lower₁, upper₁, round₂, _, octet₁⟩ :=
    fnvRound_difference (fnvRound basis a₀) (fnvRound basis b₀) a₁ b₁
      (fnvRound_lt _ _) (fnvRound_lt _ _) small.2.1 small'.2.1
  obtain ⟨c₂, w₃, lower₂, upper₂, round₃, _, octet₂⟩ :=
    fnvRound_difference (fnvRound (fnvRound basis a₀) a₁) (fnvRound (fnvRound basis b₀) b₁) a₂ b₂
      (fnvRound_lt _ _) (fnvRound_lt _ _) small.2.2.1 small'.2.2.1
  obtain ⟨c₃, _, lower₃, upper₃, _, round₄, octet₃⟩ :=
    fnvRound_difference (fnvRound (fnvRound (fnvRound basis a₀) a₁) a₂)
      (fnvRound (fnvRound (fnvRound basis b₀) b₁) b₂) a₃ b₃
      (fnvRound_lt _ _) (fnvRound_lt _ _) small.2.2.2 small'.2.2.2
  rw [Int.sub_self, Int.zero_add] at round₁
  obtain ⟨rfl, rfl, rfl, rfl⟩ := changes_eq_zero c₀ c₁ c₂ c₃ _ _ _ w₁ w₂ w₃ ⟨lower₀, upper₀⟩
    ⟨lower₁, upper₁⟩ ⟨lower₂, upper₂⟩ ⟨lower₃, upper₃⟩ round₁ round₂ round₃ (round₄ same)
  have same₀ := octet₀ rfl rfl
  subst same₀
  have same₁ := octet₁ rfl rfl
  subst same₁
  have same₂ := octet₂ rfl rfl
  subst same₂
  exact ⟨rfl, rfl, rfl, octet₃ rfl rfl⟩

/-- `FNVHash64` is injective on the numbers below `2 ^ 32`: four rounds take the
octets that can differ, and the other four take zeros. -/
theorem fnvHash64_injOn (a b : Nat) (ha : a < 2 ^ 32) (hb : b < 2 ^ 32)
    (same : fnvHash64 a = fnvHash64 b) : a = b := by
  have unfolded (n : Nat) (small : n < 2 ^ 32) : fnvHash64 n =
      fnvLoop 4 (fnvRound (fnvRound (fnvRound (fnvRound kFNVOffsetBasis64 (n % 256))
        (n / 256 % 256)) (n / 256 / 256 % 256)) (n / 256 / 256 / 256 % 256)) 0 := by
    rw [fnvHash64, fnvLoop_succ, fnvLoop_succ, fnvLoop_succ, fnvLoop_succ,
      show n / 256 / 256 / 256 / 256 = 0 by omega]
  rw [unfolded a ha, unfolded b hb] at same
  have rounds := fnvLoop_zero_inj 4 _ _ (fnvRound_lt _ _) (fnvRound_lt _ _) same
  obtain ⟨same₀, same₁, same₂, same₃⟩ := fnvRounds_injective kFNVOffsetBasis64 _ _ _ _ _ _ _ _
    (by decide) ⟨by omega, by omega, by omega, by omega⟩
    ⟨by omega, by omega, by omega, by omega⟩ rounds
  omega

end YcsbCloud.Source.Utils
