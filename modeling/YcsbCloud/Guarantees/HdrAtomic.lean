import Mathlib.Algebra.Order.BigOperators.Group.Finset
import YcsbCloud.Guarantees.HdrPercentiles
import YcsbCloud.Source.HdrAtomic

/-!
# Recordings from many threads are counted once

Between two operations of a recording the histogram is in no state that a sequence of calls
would leave: the total and the extremes lag behind the counts. What lags is owed by the
recordings under way, so that nothing is owed when every call has returned.
-/
namespace YcsbCloud.Guarantees.HdrAtomic
open Library.LogLinear Library.OrderStatistics Library.Interleaving Source.HdrHistogram
  Source.HdrAtomic HdrBuckets HdrRecording HdrPercentiles

variable {ι : Type*} [DecidableEq ι] [Fintype ι]

/-- What a recording is still to add to the total. -/
def owedTotal : Option Recording → ℕ
  | some (.addTotal _ count) => count
  | _ => 0

/-- The minimum is still to be tested against the value. -/
def OwesMin : Option Recording → ℕ → Prop
  | some (.addTotal value _), v | some (.loadMin value), v | some (.exchangeMin value _), v =>
    v = value
  | _, _ => False

/-- The maximum is still to be tested against the value. -/
def OwesMax : Option Recording → ℕ → Prop
  | some (.addTotal value _), v | some (.loadMin value), v | some (.exchangeMin value _), v
  | some (.loadMax value), v | some (.exchangeMax value _), v => v = value
  | _, _ => False

/-- What a recording knows of the values counted. -/
def Knows (c : BucketConfig) (counted : List ℕ) : Recording → Prop
  | .addCount value count => c.scale.position value < c.countsLen ∧ 0 < count
  | .addTotal value _ | .loadMin value | .loadMax value => value ∈ counted
  | .exchangeMin value currentMinValue => value ∈ counted ∧ value < currentMinValue
  | .exchangeMax value currentMaxValue => value ∈ counted ∧ currentMaxValue < value

theorem Knows.grow {c : BucketConfig} {counted : List ℕ} {r : Recording} (knows : Knows c counted r)
    (more : List ℕ) : Knows c (counted ++ more) r := by
  cases r with
  | addCount value count => exact knows
  | addTotal value count | loadMin value | loadMax value => exact List.mem_append_left _ knows
  | exchangeMin value current | exchangeMax value current =>
    exact ⟨List.mem_append_left _ knows.1, knows.2⟩

/-- The histogram counts these values, up to what the recordings under way owe. -/
structure Partial (h : Histogram) (counted : List ℕ) (pending : ι → Option Recording) : Prop where
  offset : h.normalizingIndexOffset = 0
  inside : ∀ v ∈ counted, h.config.scale.position v < h.config.countsLen
  counts : h.counts = tally h.config.countsLen (slotsOf h.config counted)
  total : h.totalCount + ∑ i, owedTotal (pending i) = counted.length
  knows : ∀ i r, pending i = some r → Knows h.config counted r
  minFrom : h.minValue = INT64_MAX ∨ h.minValue ∈ counted
  minUpTo : ∀ v ∈ counted, v = 0 ∨ h.minValue ≤ v ∨ ∃ i, OwesMin (pending i) v
  maxFrom : h.maxValue = 0 ∨ h.maxValue ∈ counted
  maxUpTo : ∀ v ∈ counted, v ≤ h.maxValue ∨ ∃ i, OwesMax (pending i) v

omit [DecidableEq ι] in
theorem Partial.slots_inside {h : Histogram} {counted : List ℕ} {pending : ι → Option Recording}
    (lags : Partial h counted pending) :
    ∀ i ∈ slotsOf h.config counted, i < h.config.countsLen := by
  intro i member
  obtain ⟨v, present, rfl⟩ := List.mem_map.mp member
  exact lags.inside v present

theorem slotsOf_append (c : BucketConfig) (first second : List ℕ) :
    slotsOf c (first ++ second) = slotsOf c first ++ slotsOf c second := List.map_append

omit [Fintype ι] in
/-- What a thread owes stays owed unless it moves. -/
theorem owed_update {P : Option Recording → Prop} {pending : ι → Option Recording}
    (owed : ∃ j, P (pending j)) (i : ι) (next : Option Recording) :
    P (pending i) ∨ ∃ j, P (Function.update pending i next j) := by
  obtain ⟨j, owes⟩ := owed
  by_cases same : j = i
  · exact .inl (same ▸ owes)
  · refine .inr ⟨j, ?_⟩
    rwa [Function.update_of_ne same]

/-- What a move of one thread has to keep: the extremes only spread, and what the thread owed
is settled or still owed. -/
theorem Partial.moved {h h' : Histogram} {counted newly : List ℕ} {pending : ι → Option Recording}
    (lags : Partial h counted pending) {i : ι} {now next : Option Recording} (here : pending i = now)
    (config : h'.config = h.config) (offset : h'.normalizingIndexOffset = h.normalizingIndexOffset)
    (inside : ∀ v ∈ newly, h.config.scale.position v < h.config.countsLen)
    (counts : h'.counts = tally h.config.countsLen (slotsOf h.config (counted ++ newly)))
    (total : h'.totalCount + owedTotal next = h.totalCount + owedTotal now + newly.length)
    (knows : ∀ r, next = some r → Knows h.config (counted ++ newly) r)
    (lower : h'.minValue ≤ h.minValue)
    (minFrom : h'.minValue = h.minValue ∨ h'.minValue ∈ counted)
    (minUpTo : ∀ v, v ∈ newly ∨ OwesMin now v → v = 0 ∨ h'.minValue ≤ v ∨ OwesMin next v)
    (upper : h.maxValue ≤ h'.maxValue)
    (maxFrom : h'.maxValue = h.maxValue ∨ h'.maxValue ∈ counted)
    (maxUpTo : ∀ v, v ∈ newly ∨ OwesMax now v → v ≤ h'.maxValue ∨ OwesMax next v) :
    Partial h' (counted ++ newly) (Function.update pending i next) := by
  subst here
  have mover {P : Option Recording → Prop} (owes : P next) :
      ∃ j, P (Function.update pending i next j) := by
    refine ⟨i, ?_⟩
    rwa [Function.update_self]
  refine {
    offset := offset.trans lags.offset
    inside := ?_
    counts := by rw [config, counts]
    total := ?_
    knows := ?_
    minFrom := ?_
    minUpTo := ?_
    maxFrom := ?_
    maxUpTo := ?_ }
  · intro v member
    rw [config]
    exact (List.mem_append.mp member).elim (lags.inside v) (inside v)
  · have sum := sum_update owedTotal pending i next
    have before := lags.total
    rw [List.length_append]
    omega
  · intro j r here
    rw [config]
    by_cases same : j = i
    · subst same
      rw [Function.update_self] at here
      exact knows r here
    · rw [Function.update_of_ne same] at here
      exact (lags.knows j r here).grow newly
  · rcases minFrom with kept | new
    · rw [kept]
      exact lags.minFrom.imp_right (List.mem_append_left _)
    · exact .inr (List.mem_append_left _ new)
  · intro v member
    have mine (owes : v ∈ newly ∨ OwesMin (pending i) v) : v = 0 ∨ h'.minValue ≤ v ∨
        ∃ j, OwesMin (Function.update pending i next j) v :=
      (minUpTo v owes).imp_right (Or.imp_right fun owes => mover (P := (OwesMin · v)) owes)
    rcases List.mem_append.mp member with old | new
    · rcases lags.minUpTo v old with zero | low | owed
      · exact .inl zero
      · exact .inr (.inl (Nat.le_trans lower low))
      · rcases owed_update (P := (OwesMin · v)) owed i next with own | other
        · exact mine (.inr own)
        · exact .inr (.inr other)
    · exact mine (.inl new)
  · rcases maxFrom with kept | new
    · rw [kept]
      exact lags.maxFrom.imp_right (List.mem_append_left _)
    · exact .inr (List.mem_append_left _ new)
  · intro v member
    have mine (owes : v ∈ newly ∨ OwesMax (pending i) v) : v ≤ h'.maxValue ∨
        ∃ j, OwesMax (Function.update pending i next j) v :=
      (maxUpTo v owes).imp_right fun owes => mover (P := (OwesMax · v)) owes
    rcases List.mem_append.mp member with old | new
    · rcases lags.maxUpTo v old with high | owed
      · exact .inl (Nat.le_trans high upper)
      · rcases owed_update (P := (OwesMax · v)) owed i next with own | other
        · exact mine (.inr own)
        · exact .inr other
    · exact mine (.inl new)

/-- A move that counts nothing. -/
theorem Partial.settled {h h' : Histogram} {counted : List ℕ} {pending : ι → Option Recording}
    (lags : Partial h counted pending) {i : ι} {now next : Option Recording} (here : pending i = now)
    (config : h'.config = h.config) (offset : h'.normalizingIndexOffset = h.normalizingIndexOffset)
    (counts : h'.counts = h.counts)
    (total : h'.totalCount + owedTotal next = h.totalCount + owedTotal now)
    (knows : ∀ r, next = some r → Knows h.config counted r)
    (lower : h'.minValue ≤ h.minValue)
    (minFrom : h'.minValue = h.minValue ∨ h'.minValue ∈ counted)
    (minUpTo : ∀ v, OwesMin now v → v = 0 ∨ h'.minValue ≤ v ∨ OwesMin next v)
    (upper : h.maxValue ≤ h'.maxValue)
    (maxFrom : h'.maxValue = h.maxValue ∨ h'.maxValue ∈ counted)
    (maxUpTo : ∀ v, OwesMax now v → v ≤ h'.maxValue ∨ OwesMax next v) :
    Partial h' counted (Function.update pending i next) := by
  rw [← List.append_nil counted] at knows ⊢
  refine lags.moved here config offset (fun _ member => nomatch member) ?_ total knows lower minFrom
    ?_ upper maxFrom ?_
  · rw [List.append_nil, counts, lags.counts]
  · rintro v (new | owed)
    · cases new
    · exact minUpTo v owed
  · rintro v (new | owed)
    · cases new
    · exact maxUpTo v owed

/-- A move that writes nothing. -/
theorem Partial.looked {h : Histogram} {counted : List ℕ} {pending : ι → Option Recording}
    (lags : Partial h counted pending) {i : ι} {now next : Option Recording} (here : pending i = now)
    (total : owedTotal next = owedTotal now)
    (knows : ∀ r, next = some r → Knows h.config counted r)
    (minUpTo : ∀ v, OwesMin now v → v = 0 ∨ h.minValue ≤ v ∨ OwesMin next v)
    (maxUpTo : ∀ v, OwesMax now v → v ≤ h.maxValue ∨ OwesMax next v) :
    Partial h counted (Function.update pending i next) :=
  lags.settled here rfl rfl rfl (congrArg (h.totalCount + ·) total) knows (Nat.le_refl _) (.inl rfl)
    minUpTo (Nat.le_refl _) (.inl rfl) maxUpTo

/-- The values that an operation counts. -/
def counting : Recording → List ℕ
  | .addCount value count => List.replicate count value
  | .addTotal .. | .loadMin _ | .exchangeMin .. | .loadMax _ | .exchangeMax .. => []

theorem operate_config (h : Histogram) (r : Recording) : (r.operate h).1.config = h.config := by
  unfold Recording.operate
  split
  all_goals first | rfl | (split <;> rfl)

/-- One operation. -/
theorem Partial.operate {h : Histogram} {counted : List ℕ} {pending : ι → Option Recording}
    (lags : Partial h counted pending) {i : ι} {r : Recording} (here : pending i = some r) :
    Partial (r.operate h).1 (counted ++ counting r)
      (Function.update pending i (r.operate h).2) := by
  have knows := lags.knows i r here
  cases r with
  | addCount value count =>
    refine lags.moved here rfl rfl ?_ ?_ ?_ ?_ (Nat.le_refl _) (.inl rfl) ?_ (Nat.le_refl _)
      (.inl rfl) ?_
    · intro v member
      rw [List.eq_of_mem_replicate member]
      exact knows.1
    · rw [counting, slotsOf_append, slotsOf, slotsOf, List.map_replicate, tally_append_replicate]
      dsimp only [Recording.operate, Histogram.normalizeIndex]
      rw [if_pos lags.offset, countsIndexFor_eq h.valid, Int.toNat_natCast, lags.counts, slotsOf]
    · rw [counting, List.length_replicate]
      rfl
    · rintro r ⟨⟩
      exact List.mem_append_right _ (List.mem_replicate.mpr ⟨Nat.ne_of_gt knows.2, rfl⟩)
    · rintro v (new | owed)
      · exact .inr (.inr (List.eq_of_mem_replicate new))
      · exact owed.elim
    · rintro v (new | owed)
      · exact .inr (List.eq_of_mem_replicate new)
      · exact owed.elim
  | addTotal value count =>
    rw [counting, List.append_nil]
    refine lags.settled here rfl rfl rfl rfl ?_ (Nat.le_refl _) (.inl rfl) (fun v owed => ?_)
      (Nat.le_refl _) (.inl rfl) (fun v owed => .inr owed)
    · rintro r ⟨⟩
      exact knows
    · exact .inr (.inr owed)
  | loadMin value =>
    rw [counting, List.append_nil]
    dsimp only [Recording.operate]
    split
    next low =>
      refine lags.looked here rfl ?_ ?_ (fun v owed => .inr owed)
      · rintro r ⟨⟩
        exact knows
      · rintro v rfl
        exact low.imp Eq.symm .inl
    next above =>
      refine lags.looked here rfl ?_ (fun v owed => .inr (.inr owed)) (fun v owed => .inr owed)
      rintro r ⟨⟩
      exact ⟨knows, by omega⟩
  | exchangeMin value current =>
    rw [counting, List.append_nil]
    dsimp only [Recording.operate]
    split
    next same =>
      have lower : value ≤ h.minValue := same ▸ Nat.le_of_lt knows.2
      refine lags.settled here rfl rfl rfl rfl ?_ lower (.inr knows.1) ?_ (Nat.le_refl _)
        (.inl rfl) (fun v owed => .inr owed)
      · rintro r ⟨⟩
        exact knows.1
      · rintro v rfl
        exact .inr (.inl (Nat.le_refl _))
    next changed =>
      refine lags.looked here rfl ?_ (fun v owed => .inr (.inr owed)) (fun v owed => .inr owed)
      rintro r ⟨⟩
      exact knows.1
  | loadMax value =>
    rw [counting, List.append_nil]
    dsimp only [Recording.operate]
    split
    next high =>
      refine lags.looked here rfl ?_ (fun v owed => owed.elim) ?_
      · rintro r ⟨⟩
      · rintro v rfl
        exact .inl high
    next below =>
      refine lags.looked here rfl ?_ (fun v owed => owed.elim) (fun v owed => .inr owed)
      rintro r ⟨⟩
      exact ⟨knows, Nat.not_le.mp below⟩
  | exchangeMax value current =>
    rw [counting, List.append_nil]
    dsimp only [Recording.operate]
    split
    next same =>
      have upper : h.maxValue ≤ value := same ▸ Nat.le_of_lt knows.2
      refine lags.settled here rfl rfl rfl rfl ?_ (Nat.le_refl _) (.inl rfl)
        (fun v owed => owed.elim) upper (.inr knows.1) ?_
      · rintro r ⟨⟩
      · rintro v rfl
        exact .inl (Nat.le_refl _)
    next changed =>
      refine lags.looked here rfl ?_ (fun v owed => owed.elim) (fun v owed => .inr owed)
      rintro r ⟨⟩
      exact knows.1

/-- A recording begins. -/
theorem Partial.begin {h : Histogram} {counted : List ℕ} {pending : ι → Option Recording}
    (lags : Partial h counted pending) {i : ι} (here : pending i = none) {value count : ℕ}
    (inside : h.config.scale.position value < h.config.countsLen) (positive : 0 < count) :
    Partial h counted (Function.update pending i (some (.addCount value count))) := by
  refine lags.looked here rfl ?_ (fun v owed => owed.elim) (fun v owed => owed.elim)
  rintro r ⟨⟩
  exact ⟨inside, positive⟩

omit [DecidableEq ι] in
theorem Holds.lags {h : Histogram} (holds : Holds h []) :
    Partial h [] fun _ : ι => none where
  offset := holds.offset
  inside := fun _ member => nomatch member
  counts := holds.counts
  total := by
    rw [holds.total]
    simp only [owedTotal, Finset.sum_const_zero, List.length_nil, Nat.add_zero]
  knows := fun _ _ => nofun
  minFrom := .inl (holds.minFresh rfl)
  minUpTo := fun _ member => nomatch member
  maxFrom := .inl (holds.maxFresh rfl)
  maxUpTo := fun _ member => nomatch member

omit [DecidableEq ι] in
/-- With no recording under way nothing is owed. -/
theorem Partial.holds {h : Histogram} {counted : List ℕ} {pending : ι → Option Recording}
    (lags : Partial h counted pending) (idle : ∀ i, pending i = none) :
    Holds h (slotsOf h.config counted) := by
  have mono := h.config.scale.position_mono
  have nonempty (some_left : slotsOf h.config counted ≠ []) : counted ≠ [] := by
    rintro rfl
    exact some_left rfl
  have empty (none_left : slotsOf h.config counted = []) : counted = [] :=
    List.map_eq_nil_iff.mp none_left
  refine {
    offset := lags.offset
    inside := ?_
    counts := lags.counts
    total := ?_
    minFresh := ?_
    minSlot := ?_
    maxFresh := ?_
    maxSlot := ?_ }
  · intro i member
    obtain ⟨v, counts, rfl⟩ := List.mem_map.mp member
    exact lags.inside v counts
  · have sum := lags.total
    rw [Finset.sum_eq_zero fun i _ => by rw [idle i]; rfl] at sum
    rw [slotsOf, List.length_map, ← sum, Nat.add_zero]
  · intro fresh
    rcases lags.minFrom with untouched | member
    · exact untouched
    · rw [empty fresh] at member
      cases member
  · intro full noZero
    have low : ∀ v ∈ counted, h.minValue ≤ v := by
      intro v member
      rcases lags.minUpTo v member with rfl | low | ⟨i, owed⟩
      · exact absurd (List.mem_map.mpr ⟨0, member, Scale.position_zero _⟩) noZero
      · exact low
      · rw [idle i] at owed
        exact owed.elim
    have counts : h.minValue ∈ counted := by
      rcases lags.minFrom with untouched | member
      · obtain ⟨v, member⟩ := List.exists_mem_of_ne_nil _ (nonempty full)
        have below := (position_lt_countsLen_iff h.valid v).mp (lags.inside v member)
        have := trackedBelow_le h.valid
        have := low v member
        have same : h.minValue = v := by
          unfold INT64_MAX at untouched
          omega
        rwa [same]
      · exact member
    refine ⟨List.mem_map_of_mem counts, ?_⟩
    intro i member
    obtain ⟨v, present, rfl⟩ := List.mem_map.mp member
    exact mono (low v present)
  · intro fresh
    rcases lags.maxFrom with untouched | member
    · exact untouched
    · rw [empty fresh] at member
      cases member
  · intro full
    have high : ∀ v ∈ counted, v ≤ h.maxValue := by
      intro v member
      rcases lags.maxUpTo v member with high | ⟨i, owed⟩
      · exact high
      · rw [idle i] at owed
        exact owed.elim
    have counts : h.maxValue ∈ counted := by
      rcases lags.maxFrom with untouched | member
      · obtain ⟨v, member⟩ := List.exists_mem_of_ne_nil _ (nonempty full)
        have := high v member
        have same : h.maxValue = v := by omega
        rwa [same]
      · exact member
    refine ⟨List.mem_map_of_mem counts, ?_⟩
    intro i member
    obtain ⟨v, present, rfl⟩ := List.mem_map.mp member
    exact mono (high v present)

/-- The values that a call records from this one on. -/
def remaining (call : Call) (value : ℤ) : List ℤ :=
  match call.expectedInterval with
  | none => [value]
  | some expectedInterval => corrections value expectedInterval

/-- The values, each as often as the call says. -/
def repeated (call : Call) (values : List ℤ) : List ℕ :=
  values.flatMap fun v => List.replicate call.count v.toNat

/-- The values that a call counts. -/
def callValues (c : BucketConfig) (call : Call) : List ℕ :=
  if Tracked c call.value then repeated call (remaining call call.value) else []

/-- The values that calls count. -/
def loggedValues (c : BucketConfig) (returned : List (Call × Bool)) : List ℕ :=
  returned.flatMap fun entry => callValues c entry.1

/-- The value that follows one is an interval below it. -/
theorem missingValue_eq (call : Call) (value : ℤ) : call.missingValue value =
    call.expectedInterval.bind fun expectedInterval =>
      if 0 < expectedInterval ∧ expectedInterval ≤ value - expectedInterval then
        some (value - expectedInterval)
      else none := by
  rw [Call.missingValue]
  cases call.expectedInterval with
  | none => rfl
  | some expectedInterval =>
    rw [Option.bind_some]
    dsimp only
    by_cases more : 0 < expectedInterval ∧ expectedInterval ≤ value - expectedInterval
    · rw [if_neg (by omega), if_pos more.2, if_pos more]
    · rw [if_neg more]
      by_cases short : expectedInterval ≤ 0 ∨ value ≤ expectedInterval
      · rw [if_pos short]
      · rw [if_neg short, if_neg (by omega)]

theorem remaining_eq (call : Call) (value : ℤ) :
    remaining call value = value ::
      ((call.missingValue value).map (remaining call)).getD [] := by
  rw [missingValue_eq]
  cases interval : call.expectedInterval with
  | none =>
    rw [remaining, interval]
    rfl
  | some expectedInterval =>
    have later (v : ℤ) : remaining call v = corrections v expectedInterval := by
      rw [remaining, interval]
    rw [later, corrections, Option.bind_some]
    by_cases kept : 0 < expectedInterval ∧ expectedInterval ≤ value
    · rw [if_pos kept, chain_step kept.1 kept.2]
      by_cases more : expectedInterval ≤ value - expectedInterval
      · rw [if_pos ⟨kept.1, more⟩, Option.map_some, Option.getD_some, later, corrections,
          if_pos ⟨kept.1, more⟩]
      · rw [if_neg (by omega), chain_nil (by omega) (by omega)]
        rfl
    · rw [if_neg kept, if_neg (by omega)]
      rfl

theorem missingValue_le {call : Call} {value missing : ℤ}
    (more : call.missingValue value = some missing) : 0 ≤ missing ∧ missing ≤ value := by
  rw [missingValue_eq, Option.bind_eq_some_iff] at more
  obtain ⟨expectedInterval, _, following⟩ := more
  by_cases long : 0 < expectedInterval ∧ expectedInterval ≤ value - expectedInterval
  · rw [if_pos long] at following
    cases following
    omega
  · rw [if_neg long] at following
    cases following

/-- What a call has still to count. -/
def uncounted : Option InCall → List ℕ
  | none => []
  | some t => counting t.recording ++ repeated t.call (remaining t.call t.value).tail

/-- What the call under way counts in all. -/
def planned (c : BucketConfig) : Option InCall → List ℕ
  | none => []
  | some t => callValues c t.call

/-- The value of a call under way is one that it counts. -/
structure UnderWay (c : BucketConfig) (t : InCall) : Prop where
  tracked : Tracked c t.call.value
  nonneg : 0 ≤ t.value
  le : t.value ≤ t.call.value
  suffix : remaining t.call t.value <:+ remaining t.call t.call.value
  counting : (counting t.recording).Sublist (repeated t.call [t.value])

theorem UnderWay.value_tracked {c : BucketConfig} {t : InCall} (underWay : UnderWay c t) :
    Tracked c t.value :=
  ⟨underWay.nonneg, Int.lt_of_le_of_lt underWay.le underWay.tracked.2⟩

theorem counting_begin (call : Call) (value : ℤ) :
    (counting (.addCount value.toNat call.count)).Sublist (repeated call [value]) := by
  rw [repeated, List.flatMap_cons, List.flatMap_nil, List.append_nil]
  exact List.Sublist.refl _

/-- What is left at the start of a recording. -/
theorem uncounted_begin (call : Call) (value : ℤ) :
    uncounted (some ⟨call, value, .addCount value.toNat call.count⟩) =
      repeated call (remaining call value) := by
  rw [remaining_eq, uncounted, remaining_eq]
  rfl

theorem start_eq {c : BucketConfig} (valid : c.Valid) (value : ℤ) (count : ℕ) :
    Recording.start c value count =
      if Tracked c value then some (.addCount value.toNat count) else none := by
  unfold Recording.start
  split
  next negative => rw [if_neg fun tracked => absurd tracked.1 (not_le.mpr negative)]
  next positive => rw [if_congr (index_outside_iff valid (not_lt.mp positive)) rfl rfl, ite_not]

theorem tracked_inside {c : BucketConfig} (valid : c.Valid) {value : ℤ} (tracked : Tracked c value) :
    c.scale.position value.toNat < c.countsLen := by
  obtain ⟨nonneg, below⟩ := tracked
  exact (position_lt_countsLen_iff valid _).mpr (by omega)

theorem record_tracked {c : BucketConfig} (valid : c.Valid) (call : Call) {value : ℤ}
    (tracked : Tracked c value) :
    call.record c value = .inl ⟨call, value, .addCount value.toNat call.count⟩ := by
  rw [Call.record, start_eq valid, if_pos tracked]

theorem record_untracked {c : BucketConfig} (valid : c.Valid) (call : Call) {value : ℤ}
    (untracked : ¬ Tracked c value) : call.record c value = .inr false := by
  rw [Call.record, start_eq valid, if_neg untracked]

/-- A histogram with what returned from it, seen with the calls under way on it. -/
structure Accounts (c : BucketConfig) (s : Recorded) (calls : ι → Option InCall) : Prop where
  config : s.histogram.config = c
  flags : ∀ entry ∈ s.returned, entry.2 = decide (Tracked c entry.1.value)
  underWay : ∀ i t, calls i = some t → UnderWay c t
  lags : ∃ counted, Partial s.histogram counted (Option.map InCall.recording ∘ calls) ∧
    ∀ v, counted.count v + ∑ i, (uncounted (calls i)).count v =
      (loggedValues c s.returned).count v + ∑ i, (planned c (calls i)).count v

omit [DecidableEq ι] in
theorem Accounts.init {h : Histogram} (holds : Holds h []) :
    Accounts h.config ⟨h, []⟩ fun _ : ι => none where
  config := rfl
  flags := fun _ member => nomatch member
  underWay := fun _ _ => nofun
  lags := ⟨[], Holds.lags holds, fun _ => rfl⟩

/-- What a move of one call has to keep. -/
theorem Accounts.moved {c : BucketConfig} {s s' : Recorded} {calls : ι → Option InCall}
    (accounts : Accounts c s calls) {i : ι} {now next : Option InCall} (here : calls i = now)
    (config : s'.histogram.config = c)
    (flags : ∀ entry ∈ s'.returned, entry.2 = decide (Tracked c entry.1.value))
    (underWay : ∀ t, next = some t → UnderWay c t) (newly : List ℕ)
    (lags : ∀ counted, Partial s.histogram counted (Option.map InCall.recording ∘ calls) →
      Partial s'.histogram (counted ++ newly)
        (Function.update (Option.map InCall.recording ∘ calls) i (next.map InCall.recording)))
    (accounted : ∀ v, newly.count v + (uncounted next).count v + (planned c now).count v +
      (loggedValues c s.returned).count v =
        (uncounted now).count v + (planned c next).count v + (loggedValues c s'.returned).count v) :
    Accounts c s' (Function.update calls i next) := by
  subst here
  obtain ⟨counted, before, balance⟩ := accounts.lags
  refine ⟨config, flags, ?_, counted ++ newly, ?_, ?_⟩
  · intro j t at_j
    by_cases same : j = i
    · subst same
      rw [Function.update_self] at at_j
      exact underWay t at_j
    · rw [Function.update_of_ne same] at at_j
      exact accounts.underWay j t at_j
  · rw [Function.comp_update]
    exact lags counted before
  · intro v
    have left := sum_update (fun t => (uncounted t).count v) calls i next
    have whole := sum_update (fun t => (planned c t).count v) calls i next
    have balanced := balance v
    have moved := accounted v
    rw [List.count_append]
    omega

theorem loggedValues_append (c : BucketConfig) (returned : List (Call × Bool)) (call : Call)
    (result : Bool) :
    loggedValues c (returned ++ [(call, result)]) = loggedValues c returned ++ callValues c call := by
  rw [loggedValues, List.flatMap_append, List.flatMap_cons, List.flatMap_nil, List.append_nil]
  rfl

omit [DecidableEq ι] in
theorem Accounts.offset {c : BucketConfig} {s : Recorded} {calls : ι → Option InCall}
    (accounts : Accounts c s calls) : s.histogram.normalizingIndexOffset = 0 := by
  obtain ⟨_, lags, _⟩ := accounts.lags
  exact lags.offset

/-- A call begins. -/
theorem Accounts.begin {c : BucketConfig} {s : Recorded} {calls : ι → Option InCall}
    (accounts : Accounts c s calls) {i : ι} (here : calls i = none) (call : Call) :
    Accounts c (Recorded.settle call s.histogram s.returned
        (call.record s.histogram.config call.value)).1
      (Function.update calls i (Recorded.settle call s.histogram s.returned
        (call.record s.histogram.config call.value)).2) := by
  obtain rfl := accounts.config
  have valid := s.histogram.valid
  have idle : (Option.map InCall.recording ∘ calls) i = none := by
    rw [Function.comp_apply, here, Option.map_none]
  by_cases tracked : Tracked s.histogram.config call.value
  · rw [record_tracked valid call tracked]
    refine accounts.moved here rfl accounts.flags ?_ [] ?_ ?_
    · rintro t ⟨⟩
      exact ⟨tracked, tracked.1, Int.le_refl _, List.suffix_refl _, counting_begin ..⟩
    · intro counted lags
      rw [List.append_nil]
      exact lags.begin idle (tracked_inside valid tracked) call.positive
    · intro v
      dsimp only [Recorded.settle, planned]
      rw [uncounted_begin, callValues, if_pos tracked, uncounted, List.count_nil]
      omega
  · rw [record_untracked valid call tracked]
    dsimp only [Recorded.settle]
    refine accounts.moved here rfl ?_ (fun _ => nofun) [] ?_ ?_
    · intro entry member
      rcases List.mem_append.mp member with old | new
      · exact accounts.flags entry old
      · rw [List.mem_singleton.mp new, decide_eq_false tracked]
    · intro counted lags
      rw [List.append_nil, Option.map_none, ← idle, Function.update_eq_self]
      exact lags
    · intro v
      have none_counted : callValues s.histogram.config call = [] := if_neg tracked
      rw [loggedValues_append, none_counted, List.append_nil, List.count_nil, Nat.zero_add]

/-- A recording counts by its first operation only. -/
theorem counting_operate {h h' : Histogram} {r next : Recording}
    (operated : r.operate h = (h', some next)) : counting next = [] := by
  cases r with
  | addCount value count | addTotal value count =>
    cases operated
    rfl
  | loadMin value | exchangeMin value current =>
    dsimp only [Recording.operate] at operated
    split at operated
    all_goals
      cases operated
      rfl
  | loadMax value | exchangeMax value current =>
    dsimp only [Recording.operate] at operated
    split at operated
    · cases operated
    · cases operated
      rfl

theorem counting_last {h h' : Histogram} {r : Recording} (operated : r.operate h = (h', none)) :
    counting r = [] := by
  cases r with
  | addCount value count => cases operated
  | addTotal value count | loadMin value | exchangeMin value current | loadMax value
  | exchangeMax value current => rfl

/-- A call makes its next operation. -/
theorem Accounts.operate {c : BucketConfig} {s : Recorded} {calls : ι → Option InCall}
    (accounts : Accounts c s calls) {i : ι} {t : InCall} (here : calls i = some t) :
    Accounts c (Recorded.settle t.call (t.operate s.histogram).1 s.returned
        (t.operate s.histogram).2).1
      (Function.update calls i (Recorded.settle t.call (t.operate s.histogram).1 s.returned
        (t.operate s.histogram).2).2) := by
  have underWay := accounts.underWay i t here
  have pending : (Option.map InCall.recording ∘ calls) i = some t.recording := by
    rw [Function.comp_apply, here, Option.map_some]
  have config := (operate_config s.histogram t.recording).trans accounts.config
  have operate {counted : List ℕ}
      (lags : Partial s.histogram counted (Option.map InCall.recording ∘ calls)) :=
    lags.operate pending
  unfold InCall.operate
  split
  next h r operated =>
    rw [operated] at config operate
    refine accounts.moved here config accounts.flags ?_ (counting t.recording)
      (fun counted lags => operate lags) ?_
    · rintro next ⟨⟩
      refine ⟨underWay.tracked, underWay.nonneg, underWay.le, underWay.suffix, ?_⟩
      rw [counting_operate operated]
      exact List.nil_sublist _
    · intro v
      dsimp only [Recorded.settle, uncounted, planned]
      rw [counting_operate operated, List.nil_append, List.count_append]
  next h operated =>
    have counts := counting_last operated
    rw [operated] at config operate
    rw [counts] at operate
    split
    next last =>
      refine accounts.moved here config ?_ (fun _ => nofun) [] (fun counted lags => operate lags) ?_
      · intro entry member
        rcases List.mem_append.mp member with old | new
        · exact accounts.flags entry old
        · rw [List.mem_singleton.mp new, decide_eq_true underWay.tracked]
      · intro v
        dsimp only [Recorded.settle, uncounted, planned]
        rw [loggedValues_append, counts, remaining_eq, last]
        simp only [repeated, List.count_append, List.tail_cons, Option.map_none, Option.getD_none,
          List.flatMap_nil, List.count_nil]
        omega
    next missing more =>
      have following : UnderWay c ⟨t.call, missing, .addCount missing.toNat t.call.count⟩ := by
        obtain ⟨nonneg, le⟩ := missingValue_le more
        refine ⟨underWay.tracked, nonneg, Int.le_trans le underWay.le, ?_, counting_begin ..⟩
        refine List.IsSuffix.trans ?_ underWay.suffix
        rw [remaining_eq t.call t.value, more]
        exact List.suffix_cons ..
      have tracked : Tracked h.config missing := config ▸ following.value_tracked
      rw [record_tracked h.valid t.call tracked]
      refine accounts.moved here config accounts.flags ?_ [] (fun counted lags => ?_) ?_
      · rintro next ⟨⟩
        exact following
      · have resumed := (operate lags).begin (i := i) (Function.update_self ..)
          (tracked_inside h.valid tracked) t.call.positive
        rwa [Function.update_idem] at resumed
      · intro v
        dsimp only [Recorded.settle, planned]
        rw [uncounted_begin, uncounted, counts, remaining_eq t.call t.value, more, List.count_nil,
          Nat.zero_add]
        rfl

omit [DecidableEq ι] in
/-- With no call under way the histogram holds what the calls that returned count. -/
theorem Accounts.holds {c : BucketConfig} {s : Recorded} {calls : ι → Option InCall}
    (accounts : Accounts c s calls) (idle : ∀ i, calls i = none) :
    Holds s.histogram (slotsOf c (loggedValues c s.returned)) := by
  obtain ⟨counted, lags, accounted⟩ := accounts.lags
  have same : counted.Perm (loggedValues c s.returned) := by
    rw [List.perm_iff_count]
    intro v
    have balance := accounted v
    simp only [idle, uncounted, planned, List.count_nil, Finset.sum_const_zero] at balance
    exact balance
  have holds := lags.holds fun i => by rw [Function.comp_apply, idle i, Option.map_none]
  rw [accounts.config] at holds
  exact holds.perm (same.map _)

theorem UnderWay.uncounted_le {c : BucketConfig} {t : InCall} (underWay : UnderWay c t) (v : ℕ) :
    (uncounted (some t)).count v ≤ (planned c (some t)).count v := by
  have rest : (uncounted (some t)).Sublist (repeated t.call (remaining t.call t.value)) := by
    rw [remaining_eq, ← List.singleton_append, repeated, List.flatMap_append, uncounted, remaining_eq]
    exact underWay.counting.append (List.Sublist.refl _)
  have all : (repeated t.call (remaining t.call t.value)).Sublist (planned c (some t)) := by
    rw [planned, callValues, if_pos underWay.tracked]
    exact underWay.suffix.sublist.flatMap _
  exact (rest.trans all).count_le v

omit [DecidableEq ι] in
/-- What returned is counted, whatever is under way. -/
theorem Accounts.count_le {c : BucketConfig} {s : Recorded} {calls : ι → Option InCall}
    (accounts : Accounts c s calls) (i : ℕ) :
    (slotsOf c (loggedValues c s.returned)).count i ≤ s.histogram.hdrCountAtIndex i := by
  obtain ⟨counted, lags, accounted⟩ := accounts.lags
  obtain rfl := accounts.config
  have more : (loggedValues s.histogram.config s.returned).Subperm counted := by
    rw [List.subperm_ext_iff]
    intro v _
    have owed : ∑ i, (uncounted (calls i)).count v ≤
        ∑ i, (planned s.histogram.config (calls i)).count v := by
      apply Finset.sum_le_sum
      intro i _
      cases here : calls i with
      | none => exact Nat.le_refl _
      | some t => exact (accounts.underWay i t here).uncounted_le v
    have balance := accounted v
    omega
  obtain ⟨part, same, sub⟩ := more
  rw [hdrCountAtIndex_tally lags.offset lags.slots_inside lags.counts, slotsOf, slotsOf,
    (same.symm.map s.histogram.config.scale.position).count_eq i]
  exact (sub.map _).count_le i

/-- How many values the calls count that returned or are under way. -/
def begun (c : BucketConfig) (s : Recorded) (calls : ι → Option InCall) : ℕ :=
  (loggedValues c s.returned).length + ∑ i, (planned c (calls i)).length

omit [DecidableEq ι] in
theorem begun_values (c : BucketConfig) (s : Recorded) (calls : ι → Option InCall) :
    ∃ values : List ℕ, values.length = begun c s calls ∧ ∀ v, values.count v =
      (loggedValues c s.returned).count v + ∑ i, (planned c (calls i)).count v := by
  refine ⟨loggedValues c s.returned ++
    (Finset.univ.toList : List ι).flatMap fun i => planned c (calls i), ?_, fun v => ?_⟩
  · rw [List.length_append, List.length_flatMap, begun, ← Finset.sum_map_toList]
  · rw [List.count_append, List.count_flatMap, ← Finset.sum_map_toList]
    rfl

omit [DecidableEq ι] in
theorem counted_le_begun {c : BucketConfig} {s : Recorded} {calls : ι → Option InCall}
    {counted : List ℕ} (accounted : ∀ v, counted.count v + ∑ i, (uncounted (calls i)).count v =
      (loggedValues c s.returned).count v + ∑ i, (planned c (calls i)).count v) :
    counted.length ≤ begun c s calls := by
  obtain ⟨values, length, whole⟩ := begun_values c s calls
  have part : counted.Subperm values := by
    rw [List.subperm_ext_iff]
    intro v _
    have balance := accounted v
    rw [whole]
    omega
  exact length ▸ part.length_le

omit [DecidableEq ι] in
/-- With so few values begun no atomic addition has wrapped around. -/
theorem Accounts.unwrapped {c : BucketConfig} {s : Recorded} {calls : ι → Option InCall}
    (accounts : Accounts c s calls) (countable : begun c s calls < 2 ^ 63) :
    s.histogram.totalCount < 2 ^ 63 ∧ ∀ i : ℕ, s.histogram.hdrCountAtIndex i < 2 ^ 63 := by
  obtain ⟨counted, lags, accounted⟩ := accounts.lags
  have few := counted_le_begun accounted
  have total := lags.total
  refine ⟨by omega, fun i => ?_⟩
  rw [hdrCountAtIndex_tally lags.offset lags.slots_inside lags.counts]
  have most := List.count_le_length (a := i) (l := slotsOf s.histogram.config counted)
  rw [slotsOf, List.length_map] at most
  rw [slotsOf]
  omega

theorem accounts_reachable {lowest highest : Int64} {figures : Int32} {h : Histogram}
    (created : hdrInit lowest highest figures = .ok h)
    {s : System ι Recorded (Option InCall)}
    (reached : Reachable recordValuesAtomic ⟨⟨h, []⟩, fun _ => none⟩ s) :
    Accounts h.config s.shared s.threads := by
  refine reached.invariant (fun s => Accounts h.config s.shared s.threads)
    (Accounts.init (hdrInit_spec created).2) ?_
  intro s i call shared local' accounts moved
  unfold recordValuesAtomic at moved
  split at moved
  next here =>
    have kept := accounts.begin here call
    rwa [Option.some.inj moved] at kept
  next t here =>
    have kept := accounts.operate here
    rwa [Option.some.inj moved] at kept

/-- Calls from many threads under every schedule, of fewer than `2 ^ 63` values. No atomic
addition has wrapped around. Each call tells whether its value is tracked, and at any time
every value of a call that returned is counted; when no call is under way the histogram
answers by the values of the calls that returned, each counted once. -/
theorem interleaved_recordings_counted {lowest highest : Int64} {figures : Int32} {h : Histogram}
    (created : hdrInit lowest highest figures = .ok h)
    {s : System ι Recorded (Option InCall)}
    (reached : Reachable recordValuesAtomic ⟨⟨h, []⟩, fun _ => none⟩ s)
    (countable : begun h.config s.shared s.threads < 2 ^ 63) :
    s.shared.histogram.config = h.config ∧
    (s.shared.histogram.totalCount < 2 ^ 63 ∧
      ∀ i < h.config.countsLen, s.shared.histogram.hdrCountAtIndex i < 2 ^ 63) ∧
    (∀ entry ∈ s.shared.returned, entry.2 = decide (Tracked h.config entry.1.value)) ∧
    (∀ i < h.config.countsLen, (slotsOf h.config (loggedValues h.config s.shared.returned)).count i ≤
      s.shared.histogram.hdrCountAtIndex i) ∧
    ((∀ i, s.threads i = none) →
      Answers s.shared.histogram (loggedValues h.config s.shared.returned) ∧
      ((loggedValues h.config s.shared.returned).length < 2 ^ 52 →
        Percentiles s.shared.histogram (loggedValues h.config s.shared.returned))) := by
  have accounts := accounts_reachable created reached
  obtain ⟨total, counts⟩ := accounts.unwrapped countable
  refine ⟨accounts.config, ⟨total, fun i _ => counts i⟩, accounts.flags,
    fun i _ => accounts.count_le i, ?_⟩
  intro idle
  have holds := accounts.holds idle
  have few : (loggedValues h.config s.shared.returned).length < 2 ^ 63 :=
    Nat.lt_of_le_of_lt (Nat.le_add_right ..) countable
  exact ⟨holds.answers accounts.config few, percentiles_of_holds accounts.config holds⟩

/-- Two threads. -/
def one : Fin 2 := 0
def other : Fin 2 := 1

theorem tiny_config : hdrCalculateBucketConfig 1 2 1 = .ok ⟨1, 2, 0, 1, 4, 16, 31, 32, 1, 32⟩ := by
  decide +kernel

/-- A small histogram. -/
def tiny : Histogram := hdrInitPreallocated _ (hdrCalculateBucketConfig_valid tiny_config)

theorem tiny_created : hdrInit 1 2 1 = .ok tiny := hdrInit_eq_preallocated tiny_config

/-- A late value with its interval, a value counted twice, and a clock that stepped back. -/
def late : Call := ⟨25, 1, some 10, by decide⟩
def twice : Call := ⟨7, 2, none, by decide⟩
def stepped : Call := ⟨-1, 1, none, by decide⟩

/-- Both threads load the same minimum, and the exchange of the second one fails. -/
def race : List (Fin 2 × Call) :=
  (List.replicate 8 [(one, late), (other, twice)]).flatten ++ List.replicate 3 (one, late) ++
    [(other, stepped)]

theorem interleaved_recordings_counted_race :
    ∃ s : System (Fin 2) Recorded (Option InCall),
      Reachable recordValuesAtomic ⟨⟨tiny, []⟩, fun _ => none⟩ s ∧
      s.shared.returned = [(twice, true), (late, true), (stepped, false)] ∧
      Answers s.shared.histogram [7, 7, 25, 15] := by
  have reached : Reachable recordValuesAtomic ⟨⟨tiny, []⟩, fun _ : Fin 2 => none⟩ _ :=
    ⟨race, _, rfl⟩
  obtain ⟨_, _, _, _, quiet⟩ := interleaved_recordings_counted tiny_created reached (by decide)
  exact ⟨_, reached, rfl, (quiet (by decide)).1⟩

end YcsbCloud.Guarantees.HdrAtomic
