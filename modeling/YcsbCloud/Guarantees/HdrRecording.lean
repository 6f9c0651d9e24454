import Mathlib.Data.List.GetD
import Mathlib.Order.Bounds.Basic
import YcsbCloud.Guarantees.HdrBuckets
import YcsbCloud.Library.Machine
import YcsbCloud.Library.OrderStatistics

/-!
# What a histogram holds after a run

To its queries a histogram is the list of the slots of the values it counted. A call of
`hdr_record_values` appends to that list or is refused; the corrected call appends the
values an interval apart, or is refused as a whole.
-/
namespace YcsbCloud.Guarantees.HdrRecording
open Library.LogLinear Library.Machine Library.OrderStatistics Source.HdrHistogram HdrBuckets

/-- The histogram counts these slots. The minimum is kept for values other than zero. -/
structure Holds (h : Histogram) (slots : List ℕ) : Prop where
  offset : h.normalizingIndexOffset = 0
  inside : ∀ i ∈ slots, i < h.config.countsLen
  counts : h.counts = tally h.config.countsLen slots
  total : h.totalCount = slots.length
  minFresh : slots = [] → h.minValue = INT64_MAX
  minSlot : slots ≠ [] → 0 ∉ slots → IsLeast {i | i ∈ slots} (h.config.scale.position h.minValue)
  maxFresh : slots = [] → h.maxValue = 0
  maxSlot : slots ≠ [] → IsGreatest {i | i ∈ slots} (h.config.scale.position h.maxValue)

theorem Holds.perm {h : Histogram} {slots others : List ℕ} (holds : Holds h slots)
    (same : slots.Perm others) : Holds h others := by
  have members : {i | i ∈ others} = {i | i ∈ slots} := by
    ext i
    exact same.mem_iff.symm
  have empty (none_left : others = []) : slots = [] := List.Perm.eq_nil (none_left ▸ same)
  have full (some_left : others ≠ []) : slots ≠ [] := by
    rintro rfl
    exact some_left same.symm.eq_nil
  exact {
    offset := holds.offset
    inside := fun i member => holds.inside i (same.mem_iff.mpr member)
    counts := holds.counts.trans (tally_perm _ same)
    total := holds.total.trans same.length_eq
    minFresh := fun fresh => holds.minFresh (empty fresh)
    minSlot := fun nonempty noZero => by
      rw [members]
      exact holds.minSlot (full nonempty) fun zero => noZero (same.mem_iff.mp zero)
    maxFresh := fun fresh => holds.maxFresh (empty fresh)
    maxSlot := fun nonempty => by
      rw [members]
      exact holds.maxSlot (full nonempty) }

theorem Holds.consistent {h : Histogram} {slots : List ℕ} (holds : Holds h slots) :
    h.totalCount = h.counts.sum := by
  rw [holds.total, holds.counts, sum_tally holds.inside]

/-- A value is counted if it has an index. -/
def Tracked (c : BucketConfig) (value : ℤ) : Prop := 0 ≤ value ∧ value < trackedBelow c

instance (c : BucketConfig) (value : ℤ) : Decidable (Tracked c value) :=
  inferInstanceAs (Decidable (_ ∧ _))

theorem index_outside_iff {c : BucketConfig} (valid : c.Valid) {value : ℤ} (nonneg : 0 ≤ value) :
    c.countsIndexFor value.toNat < 0 ∨ c.countsLen ≤ c.countsIndexFor value.toNat ↔
      ¬ Tracked c value := by
  have index := countsIndexFor_eq valid value.toNat
  have below := countsIndexFor_lt_iff valid value.toNat
  unfold Tracked
  omega

theorem hdrRecordValues_eq (h : Histogram) (value : ℤ) (count : ℕ) :
    h.hdrRecordValues value count =
      if Tracked h.config value then
        (true, (h.countsIncNormalised (h.config.countsIndexFor value.toNat) count).updateMinMax
          value.toNat)
      else (false, h) := by
  unfold Histogram.hdrRecordValues
  split
  next negative => rw [if_neg fun tracked => absurd tracked.1 (not_le.mpr negative)]
  next positive => rw [if_congr (index_outside_iff h.valid (not_lt.mp positive)) rfl rfl, ite_not]

theorem hdrRecordValues_config (h : Histogram) (value : ℤ) (count : ℕ) :
    (h.hdrRecordValues value count).2.config = h.config := by
  rw [hdrRecordValues_eq]
  split <;> rfl

theorem hdrRecordValues_refused {h : Histogram} {value : ℤ} (untracked : ¬ Tracked h.config value)
    (count : ℕ) : h.hdrRecordValues value count = (false, h) := by
  rw [hdrRecordValues_eq, if_neg untracked]

theorem hdrRecordValues_fst (h : Histogram) (value : ℤ) (count : ℕ) :
    (h.hdrRecordValues value count).1 = decide (Tracked h.config value) := by
  rw [hdrRecordValues_eq]
  split
  next tracked => rw [decide_eq_true tracked]
  next untracked => rw [decide_eq_false untracked]

theorem tracked_le {h : Histogram} {value : ℤ} (tracked : Tracked h.config value) :
    value.toNat ≤ INT64_MAX := by
  have := trackedBelow_le h.valid
  have := tracked.2
  unfold INT64_MAX
  omega

/-- A call that is not refused appends the slot of its value. -/
theorem Holds.record {h : Histogram} {slots : List ℕ} (holds : Holds h slots) {value : ℤ}
    (tracked : Tracked h.config value) {count : ℕ} (positive : 0 < count) :
    Holds (h.hdrRecordValues value count).2
      (slots ++ List.replicate count (h.config.scale.position value.toNat)) := by
  have mono := h.config.scale.position_mono
  have fits := tracked_le tracked
  have index := countsIndexFor_eq h.valid value.toNat
  have members : {i | i ∈ slots ++ List.replicate count (h.config.scale.position value.toNat)} =
      insert (h.config.scale.position value.toNat) {i | i ∈ slots} := by
    ext i
    simp only [Set.mem_ofPred_eq, Set.mem_insert_iff, List.mem_append, List.mem_replicate,
      Nat.ne_of_gt positive, ne_eq, not_false_eq_true, true_and]
    exact or_comm
  have grown : slots ++ List.replicate count (h.config.scale.position value.toNat) ≠ [] := by
    intro empty
    have := congrArg List.length empty
    simp only [List.length_append, List.length_replicate, List.length_nil] at this
    omega
  rw [hdrRecordValues_eq, if_pos tracked]
  refine {
    offset := holds.offset
    inside := ?_
    counts := ?_
    total := ?_
    minFresh := fun empty => absurd empty grown
    minSlot := ?_
    maxFresh := fun empty => absurd empty grown
    maxSlot := ?_ }
  · intro i appended
    rcases List.mem_append.mp appended with old | new
    · exact holds.inside i old
    · obtain ⟨_, rfl⟩ := List.mem_replicate.mp new
      have := tracked.1
      have := tracked.2
      exact (position_lt_countsLen_iff h.valid _).mpr (by omega)
  · rw [tally_append_replicate]
    dsimp only [Histogram.updateMinMax, Histogram.countsIncNormalised, Histogram.normalizeIndex]
    rw [if_pos holds.offset, index, Int.toNat_natCast, holds.counts]
  · dsimp only [Histogram.updateMinMax, Histogram.countsIncNormalised]
    rw [holds.total, List.length_append, List.length_replicate]
  · intro _ noZero
    rw [members]
    change 0 ∉ {i | i ∈ slots ++ List.replicate count (h.config.scale.position value.toNat)} at noZero
    rw [members, Set.mem_insert_iff, not_or] at noZero
    have nonzero : value.toNat ≠ 0 := by
      intro zero
      rw [zero, Scale.position_zero] at noZero
      exact noZero.1 rfl
    dsimp only [Histogram.updateMinMax, Histogram.countsIncNormalised]
    by_cases fresh : slots = []
    · subst fresh
      have same : (if value.toNat < h.minValue ∧ value.toNat ≠ 0 then value.toNat else h.minValue) =
          value.toNat := by
        rw [holds.minFresh rfl]
        split <;> omega
      rw [same, show {i | i ∈ ([] : List ℕ)} = ∅ by simp, insert_empty_eq]
      exact isLeast_singleton
    · have least := (holds.minSlot fresh noZero.2).insert (h.config.scale.position value.toNat)
      split
      next lower => rwa [min_eq_left (mono (Nat.le_of_lt lower.1))] at least
      next kept => rwa [min_eq_right (mono (by omega))] at least
  · intro _
    rw [members]
    dsimp only [Histogram.updateMinMax, Histogram.countsIncNormalised]
    by_cases fresh : slots = []
    · subst fresh
      have same : (if value.toNat > h.maxValue then value.toNat else h.maxValue) = value.toNat := by
        rw [holds.maxFresh rfl]
        split <;> omega
      rw [same, show {i | i ∈ ([] : List ℕ)} = ∅ by simp, insert_empty_eq]
      exact isGreatest_singleton
    · have greatest := (holds.maxSlot fresh).insert (h.config.scale.position value.toNat)
      split
      next higher => rwa [max_eq_left (mono (Nat.le_of_lt higher))] at greatest
      next kept => rwa [max_eq_right (mono (by omega))] at greatest

/-- `hdr_init` and `hdr_reset` leave nothing counted. -/
theorem holds_hdrReset {h : Histogram} (offset : h.normalizingIndexOffset = 0) :
    Holds h.hdrReset [] where
  offset := offset
  inside := fun _ member => nomatch member
  counts := (tally_nil _).symm
  total := rfl
  minFresh := fun _ => rfl
  minSlot := fun nonempty => absurd rfl nonempty
  maxFresh := fun _ => rfl
  maxSlot := fun nonempty => absurd rfl nonempty

theorem hdrInit_spec {lowest highest : Int64} {figures : Int32} {h : Histogram}
    (created : hdrInit lowest highest figures = .ok h) :
    hdrCalculateBucketConfig lowest highest figures = .ok h.config ∧ Holds h [] := by
  unfold hdrInit at created
  split at created
  · cases created
  next cfg accepted =>
    cases created
    refine ⟨accepted, {
      offset := rfl
      inside := fun _ member => nomatch member
      counts := (tally_nil _).symm
      total := rfl
      minFresh := fun _ => rfl
      minSlot := fun nonempty => absurd rfl nonempty
      maxFresh := fun _ => rfl
      maxSlot := fun nonempty => absurd rfl nonempty }⟩

/-- The slots of values. -/
def slotsOf (c : BucketConfig) (values : List ℕ) : List ℕ := values.map c.scale.position

/-- A kind of call that appends values to the histogram and tells whether it did. -/
structure Recorder (γ : Type*) where
  call : Histogram → γ → Bool × Histogram
  accepts : BucketConfig → γ → Bool
  values : BucketConfig → γ → List ℕ

/-- The machine whose inputs are the calls. -/
def Recorder.step {γ : Type*} (r : Recorder γ) : Step Histogram γ Bool := fun h input =>
  some ((r.call h input).2, (r.call h input).1)

/-- What a call does to a histogram that holds its slots. -/
def Recorder.Appends {γ : Type*} (r : Recorder γ) (admitted : γ → Prop) : Prop :=
  ∀ h slots input, Holds h slots → admitted input →
    ∃ next, r.call h input = (r.accepts h.config input, next) ∧ next.config = h.config ∧
      Holds next (slots ++ slotsOf h.config (r.values h.config input))

theorem Recorder.Appends.run {γ : Type*} {r : Recorder γ} {admitted : γ → Prop}
    (appends : r.Appends admitted) {h : Histogram} {slots : List ℕ} (holds : Holds h slots)
    (inputs : List γ) (all : ∀ input ∈ inputs, admitted input) :
    ∃ final, run r.step h inputs = some (final, inputs.map (r.accepts h.config)) ∧
      final.config = h.config ∧
      Holds final (slots ++ slotsOf h.config (inputs.flatMap (r.values h.config))) := by
  induction inputs generalizing h slots with
  | nil => exact ⟨h, rfl, rfl, (List.append_nil slots).symm ▸ holds⟩
  | cons input rest ih =>
    obtain ⟨next, called, config, held⟩ := appends h slots input holds (all input (List.mem_cons_self ..))
    obtain ⟨final, ran, same, finalHeld⟩ := ih held fun later member =>
      all later (List.mem_cons_of_mem _ member)
    rw [config] at ran same finalHeld
    refine ⟨final, (run_cons ..).mpr ⟨next, _, _, ?_, ran, List.map_cons⟩, same, ?_⟩
    · rw [Recorder.step, called]
    · rw [List.append_assoc, slotsOf, slotsOf, ← List.map_append] at finalHeld
      exact finalHeld

/-- Calls of `hdr_record_values`. -/
def recordValues : Recorder (ℤ × ℕ) where
  call := fun h input => h.hdrRecordValues input.1 input.2
  accepts := fun c input => Tracked c input.1
  values := fun c input =>
    if Tracked c input.1 then List.replicate input.2 input.1.toNat else []

theorem recordValues_appends : recordValues.Appends fun input => 0 < input.2 := by
  intro h slots input holds positive
  refine ⟨(h.hdrRecordValues input.1 input.2).2, ?_, hdrRecordValues_config .., ?_⟩
  · exact Prod.ext (hdrRecordValues_fst ..) rfl
  · dsimp only [recordValues]
    split
    next tracked =>
      rw [slotsOf, List.map_replicate]
      exact holds.record tracked positive
    next untracked =>
      rw [hdrRecordValues_refused untracked]
      exact (List.append_nil slots).symm ▸ holds

theorem hdrCountAtIndex_tally {h : Histogram} {slots : List ℕ} (offset : h.normalizingIndexOffset = 0)
    (inside : ∀ i ∈ slots, i < h.config.countsLen) (counts : h.counts = tally h.config.countsLen slots)
    (i : ℕ) : h.hdrCountAtIndex i = slots.count i := by
  rw [Histogram.hdrCountAtIndex, Histogram.countsGetNormalised, Histogram.normalizeIndex,
    if_pos offset, Histogram.countsGetDirect, Int.toNat_natCast, counts]
  by_cases within : i < h.config.countsLen
  · rw [List.getD_eq_getElem _ _ (by rwa [length_tally]), getElem_tally]
  · rw [List.getD_eq_default _ _ (by rwa [length_tally, ← Nat.not_lt]), eq_comm,
      List.count_eq_zero]
    exact fun member => within (inside i member)

theorem Holds.hdrCountAtIndex {h : Histogram} {slots : List ℕ} (holds : Holds h slots) (i : ℕ) :
    h.hdrCountAtIndex i = slots.count i :=
  hdrCountAtIndex_tally holds.offset holds.inside holds.counts i

/-- The value is counted where it has an index, and the read is outside where it has none. -/
theorem Holds.hdrCountAtValue {h : Histogram} {slots : List ℕ} (holds : Holds h slots) (value : ℕ) :
    h.hdrCountAtValue value =
      if Tracked h.config (value : ℕ) then some (slots.count (h.config.scale.position value))
      else none := by
  have inside := position_lt_countsLen_iff h.valid value
  rw [Histogram.hdrCountAtValue, Histogram.normalizeIndex, if_pos holds.offset,
    countsIndexFor_eq h.valid, Int.toNat_natCast, holds.counts]
  split
  next tracked =>
    have within := inside.mpr (Int.ofNat_lt.mp tracked.2)
    rw [List.getElem?_eq_getElem (by rwa [length_tally]), getElem_tally]
  next untracked =>
    rw [List.getElem?_eq_none_iff, length_tally, ← Nat.not_lt, inside]
    exact fun below => untracked ⟨Int.natCast_nonneg _, Int.ofNat_lt.mpr below⟩

theorem Holds.hdrMin_fresh {h : Histogram} (holds : Holds h []) : h.hdrMin = INT64_MAX := by
  have none_zero := holds.hdrCountAtIndex 0
  rw [Nat.cast_zero, List.count_nil] at none_zero
  rw [Histogram.hdrMin, none_zero, if_neg (Nat.lt_irrefl 0), Histogram.nonZeroMin,
    if_pos (holds.minFresh rfl).symm]

theorem Holds.hdrMax_fresh {h : Histogram} (holds : Holds h []) : h.hdrMax = 0 := by
  rw [Histogram.hdrMax, if_pos (holds.maxFresh rfl).symm]

/-- The minimum is in the least slot, whichever way it was found. -/
theorem Holds.hdrMin {h : Histogram} {slots : List ℕ} (holds : Holds h slots)
    (nonempty : slots ≠ []) : IsLeast {i | i ∈ slots} (h.config.scale.position h.hdrMin) := by
  have zeros := holds.hdrCountAtIndex 0
  rw [Nat.cast_zero] at zeros
  rw [Histogram.hdrMin, zeros]
  split
  next zero =>
    rw [Scale.position_zero]
    exact ⟨List.count_pos_iff.mp zero, fun _ _ => Nat.zero_le _⟩
  next noZero =>
    have least := holds.minSlot nonempty fun member => noZero (List.count_pos_iff.mpr member)
    rw [Histogram.nonZeroMin]
    split
    next untouched => rwa [← untouched] at least
    next _ => rwa [lowestEquivalentValue_eq h.valid, Scale.position_lowest]

theorem position_highestEquivalentValue {c : BucketConfig} (valid : c.Valid) (value : ℕ) :
    c.scale.position (c.highestEquivalentValue value) = c.scale.position value := by
  have ends := highestEquivalentValue_eq valid value
  have above := le_highestEquivalentValue valid value
  rw [Scale.position_eq_iff]
  exact ⟨Nat.le_trans (c.scale.lowest_position_le value) above, by omega⟩

theorem Holds.hdrMax {h : Histogram} {slots : List ℕ} (holds : Holds h slots)
    (nonempty : slots ≠ []) : IsGreatest {i | i ∈ slots} (h.config.scale.position h.hdrMax) := by
  have greatest := holds.maxSlot nonempty
  rw [Histogram.hdrMax]
  split
  next zero => rwa [← zero] at greatest
  next _ => rwa [position_highestEquivalentValue h.valid]

theorem isLeast_slotsOf {c : BucketConfig} {values : List ℕ} {m : ℕ}
    (least : IsLeast {v | v ∈ values} m) :
    IsLeast {i | i ∈ slotsOf c values} (c.scale.position m) := by
  refine ⟨List.mem_map_of_mem least.1, ?_⟩
  intro i member
  obtain ⟨v, present, rfl⟩ := List.mem_map.mp member
  exact c.scale.position_mono (least.2 present)

theorem isGreatest_slotsOf {c : BucketConfig} {values : List ℕ} {m : ℕ}
    (greatest : IsGreatest {v | v ∈ values} m) :
    IsGreatest {i | i ∈ slotsOf c values} (c.scale.position m) := by
  refine ⟨List.mem_map_of_mem greatest.1, ?_⟩
  intro i member
  obtain ⟨v, present, rfl⟩ := List.mem_map.mp member
  exact c.scale.position_mono (greatest.2 present)

/-- The answers of a histogram to the queries on a list of values, few enough for every sum
of counts to be an `int64_t`. -/
structure Answers (h : Histogram) (values : List ℕ) : Prop where
  countable : values.length < 2 ^ 63
  total : h.totalCount = values.length
  atValue : ∀ v : ℕ, h.hdrCountAtValue v =
    if Tracked h.config v then some (values.countP fun w =>
      h.config.lowestEquivalentValue v ≤ w ∧ w ≤ h.config.highestEquivalentValue v)
    else none
  fresh : values = [] → h.hdrMin = INT64_MAX ∧ h.hdrMax = 0
  least : ∀ m, IsLeast {v | v ∈ values} m →
    h.config.countsIndexFor h.hdrMin = h.config.countsIndexFor m
  greatest : ∀ m, IsGreatest {v | v ∈ values} m →
    h.config.countsIndexFor h.hdrMax = h.config.countsIndexFor m

theorem Holds.answers {h : Histogram} {c : BucketConfig} (same : h.config = c) {values : List ℕ}
    (holds : Holds h (slotsOf c values)) (countable : values.length < 2 ^ 63) :
    Answers h values := by
  subst same
  have valid := h.valid
  refine ⟨countable, ?_, ?_, ?_, ?_, ?_⟩
  · rw [holds.total, slotsOf, List.length_map]
  · intro v
    rw [holds.hdrCountAtValue, slotsOf, List.count_eq_countP, List.countP_map]
    congr 2
    apply List.countP_congr
    intro w _
    have upper := highestEquivalentValue_eq valid v
    have same := h.config.scale.position_eq_iff w (h.config.scale.position v)
    simp only [Function.comp_apply, beq_iff_eq, decide_eq_true_eq]
    rw [lowestEquivalentValue_eq valid, same]
    omega
  · rintro rfl
    exact ⟨holds.hdrMin_fresh, holds.hdrMax_fresh⟩
  · intro m least
    have nonempty : slotsOf h.config values ≠ [] := List.ne_nil_of_mem (isLeast_slotsOf least).1
    rw [countsIndexFor_eq valid, countsIndexFor_eq valid,
      (holds.hdrMin nonempty).unique (isLeast_slotsOf least)]
  · intro m greatest
    have nonempty : slotsOf h.config values ≠ [] := List.ne_nil_of_mem (isGreatest_slotsOf greatest).1
    rw [countsIndexFor_eq valid, countsIndexFor_eq valid,
      (holds.hdrMax nonempty).unique (isGreatest_slotsOf greatest)]

/-- On a new histogram the calls leave a histogram that answers by the values they append. -/
theorem Recorder.Appends.run_answers {γ : Type*} {r : Recorder γ} {admitted : γ → Prop}
    (appends : r.Appends admitted) {lowest highest : Int64} {figures : Int32} {h : Histogram}
    (created : hdrInit lowest highest figures = .ok h) (inputs : List γ)
    (all : ∀ input ∈ inputs, admitted input)
    (countable : (inputs.flatMap (r.values h.config)).length < 2 ^ 63) :
    ∃ final, Library.Machine.run r.step h inputs = some (final, inputs.map (r.accepts h.config)) ∧
      final.config = h.config ∧ Answers final (inputs.flatMap (r.values h.config)) := by
  obtain ⟨final, ran, same, held⟩ := appends.run (hdrInit_spec created).2 inputs all
  rw [List.nil_append] at held
  exact ⟨final, ran, same, held.answers same countable⟩

/-- A run of recordings on a new histogram answers by the values it counted, and tells for
each call whether it counted. -/
theorem recordings_counted {lowest highest : Int64} {figures : Int32} {h : Histogram}
    (created : hdrInit lowest highest figures = .ok h) (calls : List (ℤ × ℕ))
    (positive : ∀ call ∈ calls, 0 < call.2)
    (countable : (calls.flatMap (recordValues.values h.config)).length < 2 ^ 63) :
    ∃ final, run recordValues.step h calls =
        some (final, calls.map fun call => decide (Tracked h.config call.1)) ∧
      final.config = h.config ∧
      Answers final (calls.flatMap fun call =>
        if Tracked h.config call.1 then List.replicate call.2 call.1.toNat else []) :=
  recordValues_appends.run_answers created calls positive countable

/-- A latency recorded once, one recorded twice, and a clock that stepped back. -/
theorem recordings_counted_latencies : ∃ h final, hdrInit 1 3600000000 3 = .ok h ∧
    run recordValues.step h [(250, 1), (-1, 1), (4000, 2)] = some (final, [true, false, true]) ∧
      Answers final [250, 4000, 4000] := by
  obtain ⟨h, created, config⟩ := hdrInit_of_config latency_config
  obtain ⟨final, ran, _, answers⟩ :=
    recordings_counted created [(250, 1), (-1, 1), (4000, 2)] (by decide)
      (by rw [config]; decide)
  rw [config] at ran answers
  exact ⟨h, final, created, ran, answers⟩

/-- The values from the interval on, an interval apart. -/
def chain (value expectedInterval : ℤ) : List ℤ :=
  (List.range (value / expectedInterval).toNat).map fun k : ℕ => value - k * expectedInterval

/-- What a corrected call records: the value alone if the interval was kept. -/
def corrections (value expectedInterval : ℤ) : List ℤ :=
  if 0 < expectedInterval ∧ expectedInterval ≤ value then chain value expectedInterval else [value]

theorem chain_step {value expectedInterval : ℤ} (positive : 0 < expectedInterval)
    (enough : expectedInterval ≤ value) :
    chain value expectedInterval = value :: chain (value - expectedInterval) expectedInterval := by
  have one_more : (value / expectedInterval).toNat =
      ((value - expectedInterval) / expectedInterval).toNat + 1 := by
    have quotient := Int.add_mul_ediv_right (value - expectedInterval) 1 (Int.ne_of_gt positive)
    rw [Int.one_mul, Int.sub_add_cancel] at quotient
    have := Int.ediv_nonneg (Int.sub_nonneg_of_le enough) (Int.le_of_lt positive)
    omega
  rw [chain, one_more, List.range_succ_eq_map, List.map_cons, List.map_map, chain]
  congr 1
  · simp
  · apply List.map_congr_left
    intro k _
    simp only [Function.comp_apply]
    push_cast
    ring

theorem chain_nil {value expectedInterval : ℤ} (less : value < expectedInterval)
    (nonneg : 0 ≤ value) : chain value expectedInterval = [] := by
  rw [chain, Int.ediv_eq_zero_of_lt nonneg less]
  rfl

theorem correctLoop_holds (count : ℕ) (positive : 0 < count) (expectedInterval : ℤ)
    (interval : 0 < expectedInterval) (h : Histogram) (missingValue : ℤ) {slots : List ℕ}
    (holds : Holds h slots) (nonneg : 0 ≤ missingValue)
    (below : missingValue < trackedBelow h.config) :
    ∃ final, Histogram.correctLoop count expectedInterval interval h missingValue = (true, final) ∧
      final.config = h.config ∧
      Holds final (slots ++ slotsOf h.config
        ((chain missingValue expectedInterval).flatMap fun v => List.replicate count v.toNat)) := by
  induction h, missingValue using Histogram.correctLoop.induct count expectedInterval interval
    generalizing slots with
  | case1 h missingValue enough other refused =>
    have accepted := hdrRecordValues_fst h missingValue count
    rw [refused, decide_eq_true (show Tracked h.config missingValue from ⟨nonneg, below⟩)] at accepted
    cases accepted
  | case2 h missingValue enough next recorded ih =>
    have tracked : Tracked h.config missingValue := ⟨nonneg, below⟩
    have held := holds.record tracked positive
    have config := hdrRecordValues_config h missingValue count
    rw [recorded] at held config
    dsimp only at held config
    obtain ⟨final, looped, same, finalHolds⟩ := ih held (by omega) (by rw [config]; omega)
    rw [Histogram.correctLoop, if_pos enough, recorded]
    refine ⟨final, looped, same.trans config, ?_⟩
    rw [chain_step interval enough, List.flatMap_cons, slotsOf, List.map_append, List.map_replicate,
      ← List.append_assoc]
    rwa [config] at finalHolds
  | case3 h missingValue less =>
    rw [Histogram.correctLoop, if_neg less, chain_nil (by omega) nonneg]
    exact ⟨h, rfl, rfl, (List.append_nil slots).symm ▸ holds⟩

theorem hdrRecordCorrectedValues_refused {h : Histogram} {value : ℤ}
    (untracked : ¬ Tracked h.config value) (count : ℕ) (expectedInterval : ℤ) :
    h.hdrRecordCorrectedValues value count expectedInterval = (false, h) := by
  rw [Histogram.hdrRecordCorrectedValues, hdrRecordValues_refused untracked]

/-- Once the value is counted, none of the values below it is refused. -/
theorem hdrRecordCorrectedValues_holds {h : Histogram} {slots : List ℕ} (holds : Holds h slots)
    {value : ℤ} (tracked : Tracked h.config value) {count : ℕ} (positive : 0 < count)
    (expectedInterval : ℤ) :
    ∃ final, h.hdrRecordCorrectedValues value count expectedInterval = (true, final) ∧
      final.config = h.config ∧
      Holds final (slots ++ slotsOf h.config
        ((corrections value expectedInterval).flatMap fun v => List.replicate count v.toNat)) := by
  have held := holds.record tracked positive
  have config := hdrRecordValues_config h value count
  have recorded := hdrRecordValues_fst h value count
  rw [decide_eq_true tracked] at recorded
  unfold Histogram.hdrRecordCorrectedValues
  split
  next refused =>
    rw [refused] at recorded
    cases recorded
  next first accepted =>
    rw [accepted] at held config
    dsimp only at held config
    have alone : slots ++ slotsOf h.config ([value].flatMap fun v => List.replicate count v.toNat) =
        slots ++ List.replicate count (h.config.scale.position value.toNat) := by
      rw [List.flatMap_cons, List.flatMap_nil, List.append_nil, slotsOf, List.map_replicate]
    rw [corrections]
    split
    next interval =>
      split
      next kept =>
        have single : (if 0 < expectedInterval ∧ expectedInterval ≤ value then
            chain value expectedInterval else [value]) = [value] := by
          split
          next exact => rw [chain_step interval exact.2, chain_nil (by omega) (by omega)]
          next _ => rfl
        rw [single, alone]
        exact ⟨first, rfl, config, held⟩
      next late =>
        have below : value - expectedInterval < trackedBelow first.config := by
          have := tracked.2
          rw [config]
          omega
        obtain ⟨final, looped, same, finalHolds⟩ := correctLoop_holds count positive
          expectedInterval interval first (value - expectedInterval) held (by omega) below
        refine ⟨final, looped, same.trans config, ?_⟩
        rw [if_pos ⟨interval, by omega⟩, chain_step interval (by omega), List.flatMap_cons, slotsOf,
          List.map_append, List.map_replicate, ← List.append_assoc]
        rwa [config] at finalHolds
    next _ =>
      rw [if_neg (by omega), alone]
      exact ⟨first, rfl, config, held⟩

/-- A call of `hdr_record_corrected_values`. -/
structure CorrectedCall where
  value : ℤ
  count : ℕ
  expectedInterval : ℤ

/-- Calls of `hdr_record_corrected_values`. -/
def recordCorrectedValues : Recorder CorrectedCall where
  call := fun h input => h.hdrRecordCorrectedValues input.value input.count input.expectedInterval
  accepts := fun c input => Tracked c input.value
  values := fun c input =>
    if Tracked c input.value then
      (corrections input.value input.expectedInterval).flatMap fun v =>
        List.replicate input.count v.toNat
    else []

theorem recordCorrectedValues_appends : recordCorrectedValues.Appends fun input => 0 < input.count := by
  intro h slots input holds positive
  dsimp only [recordCorrectedValues]
  split
  next tracked =>
    rw [decide_eq_true tracked]
    exact hdrRecordCorrectedValues_holds holds tracked positive input.expectedInterval
  next untracked =>
    rw [decide_eq_false untracked]
    exact ⟨h, hdrRecordCorrectedValues_refused untracked .., rfl, (List.append_nil slots).symm ▸ holds⟩

/-- A run of corrected recordings on a new histogram: each call is refused as a whole, or
counts its value and every value below it that is a multiple of the interval away from it
and not less than the interval. -/
theorem corrected_recordings_counted {lowest highest : Int64} {figures : Int32} {h : Histogram}
    (created : hdrInit lowest highest figures = .ok h) (calls : List CorrectedCall)
    (positive : ∀ call ∈ calls, 0 < call.count)
    (countable : (calls.flatMap (recordCorrectedValues.values h.config)).length < 2 ^ 63) :
    ∃ final, run recordCorrectedValues.step h calls =
        some (final, calls.map fun call => decide (Tracked h.config call.value)) ∧
      final.config = h.config ∧
      Answers final (calls.flatMap fun call =>
        if Tracked h.config call.value then
          (corrections call.value call.expectedInterval).flatMap fun v =>
            List.replicate call.count v.toNat
        else []) :=
  recordCorrectedValues_appends.run_answers created calls positive countable

/-- A stall of 350 with an interval of 100, and one beyond what is tracked. -/
theorem corrected_recordings_counted_stall : ∃ h final, hdrInit 1 3600000000 3 = .ok h ∧
    run recordCorrectedValues.step h [⟨350, 1, 100⟩, ⟨2 ^ 32, 1, 100⟩] =
        some (final, [true, false]) ∧
      Answers final [350, 250, 150] := by
  obtain ⟨h, created, config⟩ := hdrInit_of_config latency_config
  obtain ⟨final, ran, _, answers⟩ :=
    corrected_recordings_counted created [⟨350, 1, 100⟩, ⟨2 ^ 32, 1, 100⟩] (by decide)
      (by rw [config]; decide)
  rw [config] at ran answers
  exact ⟨h, final, created, ran, answers⟩

end YcsbCloud.Guarantees.HdrRecording
