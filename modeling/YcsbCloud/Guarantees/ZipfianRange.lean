import YcsbCloud.Source.CoreWorkload
import YcsbCloud.Source.Zipfian

/-!
# The range of a zipfian generator

`Next` computes a value by one of three formulas. Over the number of items that the
generator was built for, the third gives the ranks from two up, shifted by the
minimum; the first two give the ranks zero and one as they are. For a minimum of
zero the formulas divide the ranks among them. For any other minimum the first
leaves the range, and from two up so does the second.
-/
namespace YcsbCloud.Guarantees.ZipfianRange
open Source Source.ZipfianState

variable {theta u : ℝ}

/-- A draw over all items of the generator, with the range of the third formula. -/
theorem own_cases {parameters : ZipfianGenerator} {value : Nat} (items : 2 ≤ parameters.numItems)
    (drawn : Drawn parameters theta parameters.numItems parameters.numItems u value) :
    (value = 0 ∧ u * zeta parameters.numItems theta < 1) ∨
      (value = 1 ∧ 1 ≤ u * zeta parameters.numItems theta ∧
        u * zeta parameters.numItems theta < 1 + (1 / 2) ^ theta) ∨
      (parameters.base + 2 ≤ value ∧ value < parameters.base + parameters.numItems ∧
        1 + (1 / 2) ^ theta ≤ u * zeta parameters.numItems theta) := by
  cases drawn with
  | first below => exact .inl ⟨rfl, below⟩
  | second reached below => exact .inr (.inl ⟨rfl, reached, below⟩)
  | tail reached more base power based raised range lower upper strict =>
    have count : (0 : ℝ) < parameters.numItems := by exact_mod_cast Nat.zero_lt_of_lt items
    have two : 2 ≤ (parameters.numItems : ℝ) * power := (div_le_iff₀' count).mp lower
    have below := mul_lt_of_lt_one_right count (strict more).2
    have rank : 2 ≤ ⌊(parameters.numItems : ℝ) * power⌋₊ := Nat.le_floor (by exact_mod_cast two)
    have last := (Nat.floor_lt (zero_le_two.trans two)).mpr below
    exact .inr (.inr ⟨by omega, by omega, reached⟩)

/-- A generator just built, and what it returns first. -/
theorem built_draw (min max : Nat) (ordered : min ≤ max) (bound : max < 2 ^ 64)
    (items : 2 ≤ max - min + 1 ∧ max - min + 1 < kMaxNumItems) (exponent : 0 < theta ∧ theta < 1)
    (first u : ℝ) (early : first < 1) (small : u < 1) :
    ∃ last value, construct min max theta first =
        some (settled ⟨max - min + 1, min⟩ theta (max - min + 1) last) ∧
      nextValue (settled ⟨max - min + 1, min⟩ theta (max - min + 1) last) u =
        some (value, settled ⟨max - min + 1, min⟩ theta (max - min + 1) value) ∧
      Drawn ⟨max - min + 1, min⟩ theta (max - min + 1) (max - min + 1) u value := by
  obtain ⟨last, built⟩ := construct_settled ordered bound items exponent early
  have limit : min + (max - min + 1) ≤ 2 ^ 64 := by omega
  obtain ⟨value, moved, drawn⟩ := next_settled ⟨max - min + 1, min⟩ exponent
    items.1 items.1 items small limit (fun _ => max_self _) last
  rw [max_self] at moved drawn
  exact ⟨last, value, built, moved, drawn⟩

/-- A generator built over `[min, max]` returns a value of that range. -/
def StaysInRange (min max : Nat) (theta first u : ℝ) : Prop :=
  ∃ s value after, construct min max theta first = some s ∧ s.nextValue u = some (value, after) ∧
    min ≤ value ∧ value ≤ max

/-- A length from the generator of `GetFieldLenGenerator` for zipfian lengths. -/
noncomputable def zipfianFieldLength (p : Config) (first u : ℝ) : Option Nat := do
  let s ← construct 1 (toU64 p.fieldLength.val) kZipfianConst first
  let drawn ← s.nextValue u
  some drawn.1

/-- `GetFieldLenGenerator` accepts these lengths, with the parameters of that generator. -/
theorem getFieldLenGenerator_zipfian (p : Config) (zipfian : p.fieldLenDist = .zipfian)
    (several : 2 ≤ p.fieldLength.val) :
    CoreWorkload.getFieldLenGenerator p = .ok (.zipfian ⟨p.fieldLength.val.toNat, 1⟩) := by
  have upper := p.fieldLength.property.2
  have made := make_eq 1 p.fieldLength.val.toNat (by omega) (by omega)
    ⟨by omega, by unfold kMaxNumItems; omega⟩
  rw [Nat.sub_add_cancel (by omega)] at made
  rw [CoreWorkload.getFieldLenGenerator, zipfian, toU64_of_nonneg _ (by omega) (by omega)]
  dsimp only
  rw [made]
  rfl

theorem staysInRange_iff (min max : Nat) (first u : ℝ) (ordered : min ≤ max)
    (bound : max < 2 ^ 64) (items : 2 ≤ max - min + 1 ∧ max - min + 1 < kMaxNumItems)
    (exponent : 0 < theta ∧ theta < 1) (early : first < 1) (small : u < 1) :
    StaysInRange min max theta first u ↔
      min = 0 ∨ min = 1 ∧ 1 ≤ u * zeta (max - min + 1) theta ∨
        1 + (1 / 2) ^ theta ≤ u * zeta (max - min + 1) theta := by
  have half := one_lt_second theta
  obtain ⟨last, value, built, moved, drawn⟩ :=
    built_draw min max ordered bound items exponent first u early small
  have formulas := own_cases items.1 drawn
  dsimp only at formulas
  constructor
  · intro stays
    obtain ⟨s, value', after, built', moved', lower, upper⟩ := stays
    rw [built, Option.some.injEq] at built'
    subst built'
    rw [moved, Option.some.injEq, Prod.mk.injEq] at moved'
    rcases formulas with ⟨zero, _⟩ | ⟨one, reached, _⟩ | ⟨_, _, reached⟩
    · exact .inl (by omega)
    · rcases Nat.eq_zero_or_pos min with zero | positive
      · exact .inl zero
      · exact .inr (.inl ⟨by omega, reached⟩)
    · exact .inr (.inr reached)
  · intro condition
    refine ⟨_, value, _, built, moved, ?_⟩
    rcases formulas with ⟨zero, below⟩ | ⟨one, reached, below⟩ | ⟨lower, upper, _⟩
    · rcases condition with start | ⟨_, reached⟩ | reached
      · omega
      · exact absurd below (not_lt.mpr reached)
      · exact absurd below (not_lt.mpr (half.le.trans reached))
    · rcases condition with start | ⟨start, _⟩ | reached
      · omega
      · omega
      · exact absurd below (not_lt.mpr reached)
    · omega

/-- A drawn field length is zero exactly if the first formula gives it. -/
theorem zipfianFieldLength_ne_zero_iff (p : Config) (several : 2 ≤ p.fieldLength.val)
    {first u : ℝ} (early : first < 1) (small : u < 1) :
    ∃ s length, construct 1 (toU64 p.fieldLength.val) kZipfianConst first = some s ∧
      s.toZipfianGenerator = ⟨p.fieldLength.val.toNat, 1⟩ ∧
      zipfianFieldLength p first u = some length ∧
      (length ≠ 0 ↔ 1 ≤ u * zeta p.fieldLength.val.toNat kZipfianConst) := by
  have length := p.fieldLength.property.2
  have count : p.fieldLength.val.toNat - 1 + 1 = p.fieldLength.val.toNat :=
    Nat.sub_add_cancel (by omega)
  obtain ⟨last, value, built, moved, drawn⟩ := built_draw 1
    p.fieldLength.val.toNat (by omega) (by omega) ⟨by omega, by unfold kMaxNumItems; omega⟩
    kZipfianConst_range first u early small
  have formulas := own_cases (by dsimp only; omega) drawn
  rw [count] at built moved formulas
  rw [zipfianFieldLength, toU64_of_nonneg _ (by omega) (by omega)]
  refine ⟨_, value, built, rfl, ?_, ?_⟩
  · rw [built]
    simp only [Option.bind_eq_bind, Option.bind_some, moved]
  · have one := one_lt_second kZipfianConst
    rcases formulas with ⟨zero, below⟩ | ⟨one, reached, _⟩ | ⟨lower, _, reached⟩
    · exact iff_of_false (not_not.mpr zero) (not_le.mpr below)
    · exact iff_of_true (by omega) reached
    · exact iff_of_true (by omega) (one.le.trans reached)

/-- The values of the first two formulas are ranks, not items: they are in range for
a minimum of zero, and rank one for a minimum of one. A field length drawn from the
generator that `Init` accepts is zero whenever the first formula gives it. -/
theorem stays_in_range_iff (min max : Nat) (theta first u : ℝ) (p : Config) (ordered : min ≤ max)
    (bound : max < 2 ^ 64) (items : 2 ≤ max - min + 1 ∧ max - min + 1 < kMaxNumItems)
    (exponent : 0 < theta ∧ theta < 1) (early : 0 ≤ first ∧ first < 1) (draw : 0 ≤ u ∧ u < 1) :
    (StaysInRange min max theta first u ↔
      min = 0 ∨ min = 1 ∧ 1 ≤ u * zeta (max - min + 1) theta ∨
        1 + (1 / 2) ^ theta ≤ u * zeta (max - min + 1) theta) ∧
    (p.fieldLenDist = .zipfian → 2 ≤ p.fieldLength.val →
      ∃ s length, construct 1 (toU64 p.fieldLength.val) kZipfianConst first = some s ∧
        CoreWorkload.getFieldLenGenerator p = .ok (.zipfian s.toZipfianGenerator) ∧
        zipfianFieldLength p first u = some length ∧
        (length ≠ 0 ↔ 1 ≤ u * zeta p.fieldLength.val.toNat kZipfianConst)) := by
  constructor
  · exact staysInRange_iff min max first u ordered bound items exponent early.2 draw.2
  · intro zipfian several
    obtain ⟨s, length, built, parameters, drawn, zero⟩ :=
      zipfianFieldLength_ne_zero_iff p several early.2 draw.2
    refine ⟨s, length, built, ?_, drawn, zero⟩
    rw [parameters]
    exact getFieldLenGenerator_zipfian p zipfian several

/-- Lengths one and two to choose from, and draws of zero. -/
def shortFields : Config :=
  { fieldLenDist := .zipfian, fieldLength := 2, recordCount := 1, operationCount := 1 }

theorem stays_in_range_iff_lengths :
    (StaysInRange 1 2 kZipfianConst 0 0 ↔
      1 = 0 ∨ 1 = 1 ∧ 1 ≤ 0 * zeta (2 - 1 + 1) kZipfianConst ∨
        1 + (1 / 2) ^ kZipfianConst ≤ 0 * zeta (2 - 1 + 1) kZipfianConst) ∧
      ∃ s length, construct 1 2 kZipfianConst 0 = some s ∧
        CoreWorkload.getFieldLenGenerator shortFields = .ok (.zipfian s.toZipfianGenerator) ∧
        zipfianFieldLength shortFields 0 0 = some length ∧
        (length ≠ 0 ↔ 1 ≤ 0 * zeta 2 kZipfianConst) := by
  have both := stays_in_range_iff 1 2 kZipfianConst 0 0 shortFields (by decide) (by decide)
    (by decide) kZipfianConst_range ⟨le_refl 0, one_pos⟩ ⟨le_refl 0, one_pos⟩
  exact ⟨both.1, both.2 rfl (by decide)⟩

/-- The length is zero, and outside of the range. -/
theorem field_length_zero :
    zipfianFieldLength shortFields 0 0 = some 0 ∧ ¬ StaysInRange 1 2 kZipfianConst 0 0 := by
  obtain ⟨last, value, built, moved, drawn⟩ := built_draw 1 2 (by decide) (by decide)
    (by decide) kZipfianConst_range 0 0 one_pos one_pos
  have zero : value = 0 := by
    have half := one_lt_second kZipfianConst
    rcases own_cases (by decide) drawn with ⟨zero, _⟩ | ⟨_, reached, _⟩ | ⟨_, _, reached⟩
    · exact zero
    · linarith
    · linarith
  subst value
  constructor
  · have made : construct 1 (toU64 shortFields.fieldLength.val) kZipfianConst 0 =
        some (settled ⟨2, 1⟩ kZipfianConst 2 last) := built
    simp only [zipfianFieldLength, made, Option.bind_eq_bind, Option.bind_some]
    exact congrArg (Option.bind · fun drawn => some drawn.1) moved
  · intro stays
    obtain ⟨s, value', after, built', moved', lower, upper⟩ := stays
    rw [built, Option.some.injEq] at built'
    subst built'
    rw [moved, Option.some.injEq, Prod.mk.injEq] at moved'
    omega

/-- Where the third formula is reached, `Eta` divided by no zero, and the power has
a base inside the unit interval. -/
theorem tail_defined {parameters : ZipfianGenerator} (items : 2 ≤ parameters.numItems)
    (exponent : 0 < theta ∧ theta < 1) (small : u < 1) (last : Nat)
    (reached : 1 + (1 / 2) ^ theta ≤ u * zeta parameters.numItems theta) :
    ∃ eta, (settled parameters theta parameters.numItems last).etaOf = some eta ∧
      (settled parameters theta parameters.numItems last).eta = some eta ∧
      0 < eta * u - eta + 1 ∧ eta * u - eta + 1 < 1 := by
  have more := more_than_two items small reached
  have defined := etaAt_eq (Nat.zero_lt_of_lt items) more theta
  obtain ⟨range, _, _, strict⟩ := tail_power _ exponent items more small _ reached rfl
  exact ⟨_, defined, defined, range.1, (strict more).1⟩

/-- Over the ranks from zero, the third formula is defined wherever it is reached, and
the formulas do not overlap. -/
theorem ranks_consistent (n : Nat) (theta first u : ℝ) (items : 2 ≤ n ∧ n < kMaxNumItems)
    (exponent : 0 < theta ∧ theta < 1) (early : 0 ≤ first ∧ first < 1) (draw : 0 ≤ u ∧ u < 1) :
    ∃ s value after, construct 0 (n - 1) theta first = some s ∧
      s.nextValue u = some (value, after) ∧ value < n ∧
      (1 + (1 / 2) ^ theta ≤ u * s.zetaN →
        (∃ eta, s.etaOf = some eta ∧ s.eta = some eta ∧
          0 < eta * u - eta + 1 ∧ eta * u - eta + 1 < 1) ∧ 2 ≤ value ∧ value ≤ n - 1) ∧
      (value = 0 ↔ u * s.zetaN < 1) ∧
      (value = 1 ↔ 1 ≤ u * s.zetaN ∧ u * s.zetaN < 1 + (1 / 2) ^ theta) := by
  have count : n - 1 - 0 + 1 = n := Nat.sub_add_cancel (Nat.one_le_of_lt items.1)
  have small : n < 2 ^ 64 := by
    unfold kMaxNumItems at items
    omega
  obtain ⟨last, value, built, moved, drawn⟩ := built_draw 0 (n - 1) (Nat.zero_le _) (by omega)
    (by rw [count]; exact items) exponent first u early.2 draw.2
  rw [count] at built moved drawn
  refine ⟨_, value, _, built, moved, ?_⟩
  have half := one_lt_second theta
  rcases own_cases items.1 drawn with ⟨zero, below⟩ | ⟨one, reached, below⟩ |
    ⟨lower, upper, reached⟩
  · refine ⟨by omega, ?_, iff_of_true zero below, ?_⟩
    · intro third
      exact absurd below (not_lt.mpr (half.le.trans third))
    · exact iff_of_false (by omega) fun second => absurd below (not_lt.mpr second.1)
  · refine ⟨by omega, ?_, iff_of_false (by omega) (not_lt.mpr reached), ?_⟩
    · intro third
      exact absurd below (not_lt.mpr third)
    · exact iff_of_true one ⟨reached, below⟩
  · dsimp only at lower upper
    refine ⟨by omega, ?_, ?_, ?_⟩
    · intro third
      exact ⟨tail_defined items.1 exponent draw.2 last third, by omega, by omega⟩
    · exact iff_of_false (by omega) (not_lt.mpr (half.le.trans reached))
    · exact iff_of_false (by omega) fun second => absurd second.2 (not_lt.mpr reached)

/-- Three items and a draw that the third formula turns into the last of them. -/
theorem ranks_consistent_three :
    ∃ s after, construct 0 (3 - 1) kZipfianConst 0 = some s ∧
      s.nextValue (zeta 2 kZipfianConst / zeta 3 kZipfianConst) = some (2, after) := by
  obtain ⟨positive, small⟩ := zeta_ratio (show 2 < 3 by decide) kZipfianConst
  obtain ⟨last, built⟩ := construct_settled (by decide : 0 ≤ 2) (by decide) (by decide)
    kZipfianConst_range (one_pos : (0 : ℝ) < 1)
  obtain ⟨s, value, after, made, moved, _, third, _⟩ :=
    ranks_consistent 3 kZipfianConst 0 (zeta 2 kZipfianConst / zeta 3 kZipfianConst)
      ⟨by decide, by decide⟩ kZipfianConst_range ⟨le_refl 0, one_pos⟩ ⟨positive.le, small⟩
  have reached : 1 + (1 / 2) ^ kZipfianConst ≤
      zeta 2 kZipfianConst / zeta 3 kZipfianConst * s.zetaN := by
    have sum : s.zetaN = zeta 3 kZipfianConst := by
      rw [show (3 - 1 : Nat) = 2 from rfl, built, Option.some.injEq] at made
      rw [← made]
      rfl
    rw [sum, div_mul_cancel₀ _ (zeta_pos (by decide) _).ne', zeta_two]
  obtain ⟨_, lower, upper⟩ := third reached
  have two : value = 2 := by omega
  subst value
  exact ⟨s, after, made, moved⟩

end YcsbCloud.Guarantees.ZipfianRange
