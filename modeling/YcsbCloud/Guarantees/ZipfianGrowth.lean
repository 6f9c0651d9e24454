import YcsbCloud.Library.Machine
import YcsbCloud.Source.Zipfian

/-!
# Growing a zipfian generator

`Next(num)` extends the generator's sum to `num` terms and recomputes `eta_`, from
the number of items that the generator was built for. After any calls the sum is
the one of a generator built for the largest number asked for. `eta_` is that
generator's as long as the number is no larger than the first.
-/
namespace YcsbCloud.Guarantees.ZipfianGrowth
open Library.Machine Source Source.ZipfianState

variable {theta : ℝ}

/-- One call of `Next(num)` with its draw. -/
noncomputable def call : Step ZipfianState (Nat × ℝ) Nat := fun s input =>
  (s.next input.1 input.2).map Prod.swap

/-- The largest number asked for, starting from the one at construction. -/
def largest (start : Nat) (calls : List (Nat × ℝ)) : Nat :=
  calls.foldl (fun reached input => max reached input.1) start

theorem largest_le_iff (start bound : Nat) (calls : List (Nat × ℝ)) :
    largest start calls ≤ bound ↔ start ≤ bound ∧ ∀ input ∈ calls, input.1 ≤ bound := by
  induction calls generalizing start with
  | nil => simp [largest]
  | cons input rest ih =>
    rw [List.forall_mem_cons, ← and_assoc, ← max_le_iff]
    exact ih (max start input.1)

theorem start_le_largest (start : Nat) (calls : List (Nat × ℝ)) : start ≤ largest start calls :=
  ((largest_le_iff start _ calls).mp (le_refl _)).1

/-- A call that the assertion of `Next` admits, with a draw of the unit interval. -/
def Admitted (input : Nat × ℝ) : Prop :=
  (2 ≤ input.1 ∧ input.1 < kMaxNumItems) ∧ 0 ≤ input.2 ∧ input.2 < 1

/-- Any calls lead from one settled state to another. -/
theorem calls_settled (exponent : 0 < theta ∧ theta < 1) {n0 : Nat} (items : 2 ≤ n0)
    (calls : List (Nat × ℝ)) (admitted : ∀ input ∈ calls, Admitted input) {nForZeta : Nat}
    (two : 2 ≤ nForZeta) (last : Nat) :
    ∃ value values, run call (settled ⟨n0, 0⟩ theta nForZeta last) calls =
      some (settled ⟨n0, 0⟩ theta (largest nForZeta calls) value, values) := by
  induction calls generalizing nForZeta last with
  | nil => exact ⟨last, [], rfl⟩
  | cons input rest ih =>
    rw [List.forall_mem_cons] at admitted
    obtain ⟨⟨asked, _, small⟩, later⟩ := admitted
    obtain ⟨value, moved, _⟩ := next_rank exponent items two asked small last
    obtain ⟨final, values, ran⟩ := ih later (le_max_of_le_left two) value
    have stepped : call (settled ⟨n0, 0⟩ theta nForZeta last) input =
        some (settled ⟨n0, 0⟩ theta (max nForZeta input.1) value, value) := by
      rw [call, moved]
      rfl
    exact ⟨final, value :: values, (run_cons ..).mpr ⟨_, _, _, stepped, ran, rfl⟩⟩

/-- A generator built for a number of items, up to its last value. -/
theorem built_settled (exponent : 0 < theta ∧ theta < 1) {n : Nat}
    (items : 2 ≤ n ∧ n < kMaxNumItems) (first : ℝ) (early : first < 1) :
    ∃ value, construct 0 (n - 1) theta first = some (settled ⟨n, 0⟩ theta n value) := by
  have count : n - 1 - 0 + 1 = n := Nat.sub_add_cancel (Nat.one_le_of_lt items.1)
  have bound : n - 1 < 2 ^ 64 := by
    unfold kMaxNumItems at items
    omega
  have built := construct_settled (Nat.zero_le (n - 1)) bound (by rw [count]; exact items) exponent
    early
  rw [count] at built
  exact built

/-- The members that a draw computes with, apart from the parameters. -/
structure SameTables (s t : ZipfianState) : Prop where
  nForZeta : s.nForZeta = t.nForZeta
  zetaN : s.zetaN = t.zetaN
  eta : s.eta = t.eta
  alpha : s.alpha = t.alpha
  zeta2 : s.zeta2 = t.zeta2

/-- A generator built for `n0` items computes, after the calls, with the members of
one built for the largest number; and a call for more items than before returns
what a generator built for them does, which is one of them. -/
structure GrowsLikeFresh (n0 : Nat) (theta first again : ℝ) (calls : List (Nat × ℝ)) : Prop where
  tables : ∃ s final values fresh, construct 0 (n0 - 1) theta first = some s ∧
    run call s calls = some (final, values) ∧
    construct 0 (largest n0 calls - 1) theta again = some fresh ∧ SameTables final fresh
  values : ∀ earlier num u later, calls = earlier ++ (num, u) :: later → largest n0 earlier < num →
    ∃ s middle outs value after fresh freshAfter, construct 0 (n0 - 1) theta first = some s ∧
      run call s earlier = some (middle, outs) ∧ middle.next num u = some (value, after) ∧
      construct 0 (num - 1) theta again = some fresh ∧
      fresh.nextValue u = some (value, freshAfter) ∧ value < num

/-- `eta_` grows with the number of items that it is computed from. -/
theorem etaReal_lt (exponent : theta < 1) {n m nForZeta : Nat} (items : 0 < n) (more : n < m)
    (raised : 2 < nForZeta) : etaReal n nForZeta theta < etaReal m nForZeta theta := by
  have low : (0 : ℝ) < n := by exact_mod_cast items
  have high : (n : ℝ) < m := by exact_mod_cast more
  have share : 2 / (m : ℝ) < 2 / n := div_lt_div_of_pos_left two_pos low high
  have power : (2 / (m : ℝ)) ^ (1 - theta) < (2 / n) ^ (1 - theta) :=
    Real.rpow_lt_rpow (by positivity) share (sub_pos.mpr exponent)
  have width : 0 < 1 - zeta 2 theta / zeta nForZeta theta :=
    sub_pos.mpr (zeta_ratio raised theta).2
  exact div_lt_div_of_pos_right (sub_lt_sub_left power 1) width

/-- The members computed from the sum follow every call. -/
theorem grown_tables (n0 m : Nat) (theta : ℝ) (value other : Nat) (larger : n0 ≤ m)
    (items : 2 ≤ n0) (exponent : theta < 1) :
    SameTables (settled ⟨n0, 0⟩ theta m value) (settled ⟨m, 0⟩ theta m other) ↔ m ≤ n0 := by
  constructor
  · intro same
    by_contra grown
    have less := etaReal_lt exponent (Nat.zero_lt_of_lt items) (not_le.mp grown)
      (items.trans_lt (not_le.mp grown))
    have etas : etaAt n0 m theta = etaAt m m theta := same.eta
    rw [etaAt_eq (by omega) (by omega), etaAt_eq (by omega) (by omega), Option.some.injEq] at etas
    exact less.ne etas
  · intro notGrown
    have same : n0 = m := le_antisymm larger notGrown
    subst same
    exact ⟨rfl, rfl, rfl, rfl, rfl⟩

/-- The third formula gives no less when `eta_` comes from fewer items. -/
theorem drawn_antitone (exponent : 0 < theta ∧ theta < 1) {n m num value fresh : Nat} {u : ℝ}
    (items : 2 ≤ n) (more : n < m) (two : 2 ≤ num) (small : u < 1)
    (grown : Drawn ⟨n, 0⟩ theta num num u value) (built : Drawn ⟨m, 0⟩ theta num num u fresh) :
    fresh ≤ value ∧ (u * zeta num theta < 1 + (1 / 2) ^ theta → value = fresh) := by
  rcases lt_or_ge (u * zeta num theta) 1 with first | reached
  · rw [grown.eq_zero first, built.eq_zero first]
    exact ⟨le_refl 0, fun _ => rfl⟩
  rcases lt_or_ge (u * zeta num theta) (1 + (1 / 2) ^ theta) with second | third
  · rw [grown.eq_one reached second, built.eq_one reached second]
    exact ⟨le_refl 1, fun _ => rfl⟩
  refine ⟨?_, fun below => absurd below (not_lt.mpr third)⟩
  have raised := more_than_two two small third
  have positive := (tail_power ⟨m, 0⟩ exponent (items.trans more.le) raised small _ third rfl).1.1
  have etas := etaReal_lt exponent.2 (Nat.zero_lt_of_lt items) more raised
  have bases : etaReal m num theta * u - etaReal m num theta + 1 ≤
      etaReal n num theta * u - etaReal n num theta + 1 := by
    have scaled := mul_le_mul_of_nonneg_right etas.le (sub_nonneg.mpr small.le)
    linarith
  have powers := Real.rpow_le_rpow positive.le bases
    (one_div_pos.mpr (sub_pos.mpr exponent.2)).le
  rw [grown.eq_tail third, built.eq_tail third]
  exact Nat.add_le_add_left (Nat.floor_le_floor
    (mul_le_mul_of_nonneg_left powers num.cast_nonneg)) 0

/-- What a call for more items than ever returns, beside a generator built for them:
the same rank from the first two formulas, otherwise one no smaller, and never more
than the number of items. -/
theorem grown_draw (exponent : 0 < theta ∧ theta < 1) {n0 nForZeta num : Nat} {u : ℝ}
    (items : 2 ≤ n0) (more : n0 < num) (two : 2 ≤ nForZeta) (raised : nForZeta ≤ num)
    (below : num < kMaxNumItems) (small : u < 1) (last other : Nat) :
    ∃ value fresh, next (settled ⟨n0, 0⟩ theta nForZeta last) num u =
        some (value, settled ⟨n0, 0⟩ theta num value) ∧
      nextValue (settled ⟨num, 0⟩ theta num other) u =
        some (fresh, settled ⟨num, 0⟩ theta num fresh) ∧
      fresh ≤ value ∧ value ≤ num ∧
      (u * zeta num theta < zeta 2 theta → value = fresh) := by
  have asked : 2 ≤ num ∧ num < kMaxNumItems := ⟨two.trans raised, below⟩
  obtain ⟨value, moved, drawn⟩ := next_rank exponent items two asked small last
  obtain ⟨fresh, builtMoved, built⟩ := next_rank exponent asked.1 asked.1 asked small other
  rw [max_eq_right raised] at moved drawn
  rw [max_self] at builtMoved built
  have compared := drawn_antitone exponent items more asked.1 small drawn built
  have top := drawn.le (Nat.zero_lt_of_lt asked.1)
  rw [zeta_two]
  exact ⟨value, fresh, moved, builtMoved, compared.1, by simpa using top, compared.2⟩

/-- A call for more items than before, beside a generator built for them: it returns
the same rank from the first two formulas, otherwise one no smaller, and never more
than the number of items. -/
def GrowsBeside (n0 : Nat) (theta first again : ℝ) (calls : List (Nat × ℝ)) : Prop :=
  ∀ earlier num u later, calls = earlier ++ (num, u) :: later → largest n0 earlier < num →
    ∃ s middle outs value after made fresh freshAfter,
      construct 0 (n0 - 1) theta first = some s ∧ run call s earlier = some (middle, outs) ∧
      middle.next num u = some (value, after) ∧ construct 0 (num - 1) theta again = some made ∧
      made.nextValue u = some (fresh, freshAfter) ∧ fresh ≤ value ∧ value ≤ num ∧
      (u * zeta num theta < zeta 2 theta → value = fresh)

theorem grows_beside (exponent : 0 < theta ∧ theta < 1) {n0 : Nat} {first again : ℝ}
    (items : 2 ≤ n0 ∧ n0 < kMaxNumItems) (early : first < 1) (late : again < 1)
    (calls : List (Nat × ℝ)) (admitted : ∀ input ∈ calls, Admitted input) :
    GrowsBeside n0 theta first again calls := by
  intro earlier num u later split more
  obtain ⟨before, at_call⟩ : (∀ input ∈ earlier, Admitted input) ∧ Admitted (num, u) := by
    rw [split, List.forall_mem_append, List.forall_mem_cons] at admitted
    exact ⟨admitted.1, admitted.2.1⟩
  have start := start_le_largest n0 earlier
  obtain ⟨value, built⟩ := built_settled exponent items first early
  obtain ⟨last, outs, ran⟩ := calls_settled exponent items.1 earlier before items.1 value
  obtain ⟨other, made⟩ := built_settled exponent at_call.1 again late
  obtain ⟨drawn, fresh, moved, builtMoved, compared⟩ :=
    grown_draw exponent items.1 (start.trans_lt more) (items.1.trans start) more.le at_call.1.2
      at_call.2.2 last other
  exact ⟨_, _, outs, drawn, _, _, fresh, _, built, ran, moved, made, builtMoved, compared⟩

/-- A generator agrees with a fresh one exactly as long as no call asks for more items
than it was built for. A call that does stays beside the fresh one. -/
theorem grows_like_fresh_iff (n0 : Nat) (theta first again : ℝ) (calls : List (Nat × ℝ))
    (items : 2 ≤ n0 ∧ n0 < kMaxNumItems) (exponent : 0 < theta ∧ theta < 1)
    (early : 0 ≤ first ∧ first < 1) (late : 0 ≤ again ∧ again < 1)
    (admitted : ∀ input ∈ calls, Admitted input) :
    (GrowsLikeFresh n0 theta first again calls ↔ ∀ input ∈ calls, input.1 ≤ n0) ∧
      GrowsBeside n0 theta first again calls := by
  refine ⟨?_, grows_beside exponent items early.2 late.2 calls admitted⟩
  obtain ⟨value, built⟩ := built_settled exponent items first early.2
  obtain ⟨last, values, ran⟩ := calls_settled exponent items.1 calls admitted items.1 value
  have larger := start_le_largest n0 calls
  have below : largest n0 calls < kMaxNumItems := by
    have bounded := (largest_le_iff n0 (kMaxNumItems - 1) calls).mpr
      ⟨Nat.le_sub_one_of_lt items.2, fun input member =>
        Nat.le_sub_one_of_lt (admitted input member).1.2⟩
    exact Nat.lt_of_le_sub_one (by decide) bounded
  obtain ⟨other, fresh⟩ := built_settled exponent ⟨items.1.trans larger, below⟩ again late.2
  have tables := grown_tables n0 (largest n0 calls) theta last other larger items.1 exponent.2
  constructor
  · intro agrees
    obtain ⟨s, final, outs, t, built', ran', fresh', same⟩ := agrees.tables
    rw [built, Option.some.injEq] at built'
    rw [← built', ran, Option.some.injEq, Prod.mk.injEq] at ran'
    rw [fresh, Option.some.injEq] at fresh'
    rw [← ran'.1, ← fresh', tables] at same
    exact ((largest_le_iff n0 n0 calls).mp same).2
  · intro kept
    have reached := (largest_le_iff n0 n0 calls).mpr ⟨le_refl n0, kept⟩
    refine ⟨⟨_, _, values, _, built, ran, fresh, tables.mpr reached⟩, ?_⟩
    intro earlier num u later split more
    have bounded := kept (num, u) (by rw [split]; simp)
    exact absurd ((start_le_largest n0 earlier).trans_lt more) (not_lt.mpr bounded)

/-- Within the first size, the last call leaves the members of a fresh generator. -/
theorem grows_like_fresh_iff_within :
    GrowsLikeFresh 3 kZipfianConst 0 0 [(2, 0), (3, 1 / 2)] :=
  (grows_like_fresh_iff 3 kZipfianConst 0 0 _ ⟨by decide, by decide⟩ kZipfianConst_range
    ⟨le_refl 0, one_pos⟩ ⟨le_refl 0, one_pos⟩
    (List.forall_mem_cons.mpr ⟨⟨by decide, le_refl 0, one_pos⟩,
      List.forall_mem_singleton.mpr ⟨by decide, one_half_pos.le, one_half_lt_one⟩⟩)).1.mpr
    (List.forall_mem_cons.mpr ⟨by decide, List.forall_mem_singleton.mpr (le_refl 3)⟩)

/-- A generator for two items has no `eta_` of its own and computes it as zero for
three: the third formula then gives three, which is no rank of three items. -/
theorem two_items_grown :
    (∃ s after, construct 0 (2 - 1) kZipfianConst 0 = some s ∧
      s.next 3 (zeta 2 kZipfianConst / zeta 3 kZipfianConst) = some (3, after)) ∧
    ¬ GrowsLikeFresh 2 kZipfianConst 0 0
      [(3, zeta 2 kZipfianConst / zeta 3 kZipfianConst)] := by
  obtain ⟨last, built⟩ :=
    built_settled kZipfianConst_range (n := 2) ⟨by decide, by decide⟩ 0 one_pos
  obtain ⟨positive, small⟩ := zeta_ratio (show 2 < 3 by decide) kZipfianConst
  obtain ⟨value, moved, drawn⟩ := next_rank kZipfianConst_range (le_refl 2) (le_refl 2)
    (show 2 ≤ 3 ∧ 3 < kMaxNumItems by decide) small last
  have reached : 1 + (1 / 2) ^ kZipfianConst ≤
      zeta 2 kZipfianConst / zeta 3 kZipfianConst * zeta (max 2 3) kZipfianConst := by
    rw [← zeta_two]
    exact (div_mul_cancel₀ _ (zeta_pos (by decide) _).ne').ge
  have flat : etaReal 2 3 kZipfianConst = 0 := by
    simp [etaReal]
  have three := drawn.eq_tail reached
  have top : ((3 : Nat) : ℝ) * (etaReal 2 (max 2 3) kZipfianConst *
      (zeta 2 kZipfianConst / zeta 3 kZipfianConst) - etaReal 2 (max 2 3) kZipfianConst + 1) ^
      (1 / (1 - kZipfianConst)) = (3 : Nat) := by
    rw [show max 2 3 = 3 from rfl, flat]
    simp
  rw [top, Nat.floor_natCast] at three
  subst value
  refine ⟨⟨_, _, built, moved⟩, ?_⟩
  intro agrees
  obtain ⟨s, middle, outs, value, after, fresh, freshAfter, built', ran, moved', _, _, below⟩ :=
    agrees.values [] 3 _ [] rfl (by decide)
  rw [built, Option.some.injEq] at built'
  rw [run_nil, ← built', Option.some.injEq, Prod.mk.injEq] at ran
  rw [← ran.1, moved, Option.some.injEq, Prod.mk.injEq] at moved'
  omega

end YcsbCloud.Guarantees.ZipfianGrowth
