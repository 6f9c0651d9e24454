import YcsbCloud.Guarantees.HdrIterator
import YcsbCloud.Guarantees.HdrPercentiles

/-!
# Adding histograms

`hdr_add` goes over the classes that another histogram counts and records the lowest value
of each, as often as it is counted. Between histograms of one configuration nothing is
lost by this: the sum answers as one histogram that recorded both runs.
-/
namespace YcsbCloud.Guarantees.HdrMerge
open Library.LogLinear Library.Machine Library.OrderStatistics Source.HdrHistogram HdrBuckets
  HdrIterator HdrRecording HdrPercentiles

section Loop

variable {γ : Type*} {r : Recorder γ} {admitted : γ → Prop} {source : Histogram}

/-- The call made for a class that is counted. -/
def callOf (source : Histogram) (input : ℕ → ℕ → γ) (entry : ℕ × ℕ) : γ :=
  input (source.config.hdrValueAtIndex entry.2) entry.1

/-- The values of the calls that are refused. -/
def refused (r : Recorder γ) (c : BucketConfig) (source : Histogram) (input : ℕ → ℕ → γ)
    (classes : List (ℕ × ℕ)) : ℕ :=
  (classes.map fun entry => if r.accepts c (callOf source input entry) then 0 else entry.1).sum

theorem addLoop_appends (appends : r.Appends admitted) (offset : source.normalizingIndexOffset = 0)
    (consistent : source.totalCount = source.counts.sum) (input : ℕ → ℕ → γ) (classes : List (ℕ × ℕ))
    (all : ∀ entry ∈ classes, admitted (callOf source input entry)) {h : Histogram}
    {slots : List ℕ} (holds : Holds h slots) (dropped : ℕ) {iter : Iter} {i : ℕ}
    (position : At source iter i) (left : ahead source i = classes) :
    ∃ final, Histogram.addLoop source (fun h value count => r.call h (input value count)) h dropped
        iter = (dropped + refused r h.config source input classes, final) ∧
      final.config = h.config ∧
      Holds final (slots ++ slotsOf h.config
        (classes.flatMap fun entry => r.values h.config (callOf source input entry))) := by
  induction classes generalizing h slots dropped iter i with
  | nil =>
    have visited := recordedIterNext_at offset consistent position
    rw [left] at visited
    refine ⟨h, ?_, rfl, (List.append_nil slots).symm ▸ holds⟩
    rw [Histogram.addLoop]
    split
    next stopped => rfl
    next next moved =>
      rw [moved] at visited
      cases visited
  | cons entry rest ih =>
    have visited := recordedIterNext_at offset consistent position
    rw [left] at visited
    obtain ⟨next, moved, nextAt, count, value, later⟩ := visited
    obtain ⟨stepped, called, config, held⟩ :=
      appends h slots (callOf source input entry) holds (all entry (List.mem_cons_self ..))
    have rest_all : ∀ other ∈ rest, admitted (callOf source input other) := fun other member =>
      all other (List.mem_cons_of_mem _ member)
    rw [Histogram.addLoop]
    split
    next stopped =>
      rw [moved] at stopped
      cases stopped
    next other reached =>
      rw [moved] at reached
      cases reached
      rw [value, count, show input (source.config.hdrValueAtIndex entry.2) entry.1 =
        callOf source input entry from rfl, called]
      have ends (final : Histogram) (finalHeld : Holds final (slots ++ slotsOf h.config
          (r.values h.config (callOf source input entry)) ++ slotsOf h.config
            (rest.flatMap fun entry => r.values h.config (callOf source input entry)))) :
          Holds final (slots ++ slotsOf h.config
            ((entry :: rest).flatMap fun entry => r.values h.config (callOf source input entry))) := by
        rw [List.append_assoc, slotsOf, slotsOf, ← List.map_append] at finalHeld
        rw [List.flatMap_cons]
        exact finalHeld
      rw [refused, List.map_cons, List.sum_cons]
      cases r.accepts h.config (callOf source input entry) with
      | true =>
        obtain ⟨final, looped, same, finalHeld⟩ := ih rest_all held dropped nextAt later.symm
        rw [config] at looped same finalHeld
        refine ⟨final, ?_, same, ends final finalHeld⟩
        dsimp only
        rw [looped, if_pos rfl, Nat.zero_add, refused]
      | false =>
        obtain ⟨final, looped, same, finalHeld⟩ :=
          ih rest_all held (dropped + entry.1) nextAt later.symm
        rw [config] at looped same finalHeld
        refine ⟨final, ?_, same, ends final finalHeld⟩
        dsimp only
        rw [looped, if_neg Bool.false_ne_true, refused, Nat.add_assoc]

end Loop

theorem entries_pos {counts : List ℕ} {i : ℕ} {entry : ℕ × ℕ} (member : entry ∈ entries counts i) :
    0 < entry.1 := by
  have nonzero := (List.mem_filter.mp member).2
  exact Nat.pos_of_ne_zero (of_decide_eq_true nonzero)

/-- What a histogram can tell of its values: the lowest of the class of each. -/
def lowests (c : BucketConfig) (slots : List ℕ) : List ℕ := slots.map c.scale.lowest

theorem lowests_append (c : BucketConfig) (first second : List ℕ) :
    lowests c (first ++ second) = lowests c first ++ lowests c second := List.map_append

theorem lowests_replicate (c : BucketConfig) (n i : ℕ) :
    lowests c (List.replicate n i) = List.replicate n (c.scale.lowest i) := List.map_replicate

theorem tracked_values {source : Histogram} (c : BucketConfig) (classes : List (ℕ × ℕ)) :
    (classes.flatMap fun entry =>
        recordValues.values c (callOf source (fun value count => ((value : ℤ), count)) entry)) =
      (lowests source.config (classes.flatMap fun entry =>
        List.replicate entry.1 entry.2)).filter fun value => Tracked c (value : ℕ) := by
  induction classes with
  | nil => rfl
  | cons entry rest ih =>
    rw [List.flatMap_cons, List.flatMap_cons, lowests_append, List.filter_append, ih,
      lowests_replicate, List.filter_replicate]
    congr 1
    dsimp only [recordValues, callOf]
    rw [hdrValueAtIndex_eq source.valid, Int.toNat_natCast]
    split <;> simp_all

theorem refused_values {source : Histogram} (c : BucketConfig) (classes : List (ℕ × ℕ)) :
    refused recordValues c source (fun value count => ((value : ℤ), count)) classes =
      (lowests source.config (classes.flatMap fun entry =>
        List.replicate entry.1 entry.2)).countP fun value => ¬ Tracked c (value : ℕ) := by
  induction classes with
  | nil => rfl
  | cons entry rest ih =>
    rw [refused, List.map_cons, List.sum_cons, ← refused, ih, List.flatMap_cons, lowests_append,
      List.countP_append, lowests_replicate, List.countP_replicate]
    have accepts : recordValues.accepts c
        (callOf source (fun value count => ((value : ℤ), count)) entry) =
        decide (Tracked c (source.config.scale.lowest entry.2 : ℕ)) := by
      rw [← hdrValueAtIndex_eq source.valid]
      rfl
    rw [accepts]
    by_cases tracked : Tracked c (source.config.scale.lowest entry.2 : ℕ)
    · simp [tracked]
    · simp [tracked]

/-- The classes that are visited have the values that the source holds. -/
theorem lowests_expanded {source : Histogram} {slots : List ℕ} (holds : Holds source slots) :
    (lowests source.config ((ahead source 0).flatMap fun entry =>
      List.replicate entry.1 entry.2)).Perm (lowests source.config slots) := by
  have same := expand_tally holds.inside
  rw [← holds.counts] at same
  exact same.map _

/-- Adding records the lowest value of the class of every value, and drops those that the
target does not track. -/
theorem hdrAdd_holds {h source : Histogram} {slots sourceSlots : List ℕ} (holds : Holds h slots)
    (sourceHolds : Holds source sourceSlots) :
    ∃ final, h.hdrAdd source =
        ((lowests source.config sourceSlots).countP fun value => ¬ Tracked h.config (value : ℕ),
          final) ∧
      final.config = h.config ∧
      Holds final (slots ++ slotsOf h.config
        ((lowests source.config sourceSlots).filter fun value => Tracked h.config (value : ℕ))) := by
  have lowestsPerm := lowests_expanded sourceHolds
  obtain ⟨final, added, config, held⟩ := addLoop_appends recordValues_appends sourceHolds.offset
    sourceHolds.consistent (fun value count => ((value : ℤ), count)) (ahead source 0)
    (fun entry member => entries_pos member) holds 0 (at_hdrIterInit source) rfl
  rw [tracked_values] at held
  refine ⟨final, ?_, config, held.perm ?_⟩
  · rw [Histogram.hdrAdd, ← lowestsPerm.countP_eq]
    rw [Nat.zero_add, refused_values] at added
    exact added
  · exact List.Perm.append_left _ ((lowestsPerm.filter _).map _)

theorem lowests_slotsOf {c : BucketConfig} (valid : c.Valid) (values : List ℕ) :
    lowests c (slotsOf c values) = values.map c.lowestEquivalentValue := by
  rw [lowests, slotsOf, List.map_map]
  exact List.map_congr_left fun v _ => (lowestEquivalentValue_eq valid v).symm

theorem both_run {lowest highest lowest' highest' : Int64} {figures figures' : Int32}
    {first second : Histogram} (createdFirst : hdrInit lowest highest figures = .ok first)
    (createdSecond : hdrInit lowest' highest' figures' = .ok second) {calls others : List (ℤ × ℕ)}
    (positive : ∀ call ∈ calls ++ others, 0 < call.2) :
    ∃ target source, run recordValues.step first calls =
        some (target, calls.map (recordValues.accepts first.config)) ∧
      target.config = first.config ∧
      Holds target (slotsOf first.config (calls.flatMap (recordValues.values first.config))) ∧
      run recordValues.step second others =
        some (source, others.map (recordValues.accepts second.config)) ∧
      source.config = second.config ∧
      Holds source (slotsOf second.config (others.flatMap (recordValues.values second.config))) := by
  obtain ⟨target, ranFirst, targetConfig, targetHolds⟩ :=
    recordValues_appends.run (hdrInit_spec createdFirst).2 calls fun call member =>
      positive call (List.mem_append_left _ member)
  obtain ⟨source, ranSecond, sourceConfig, sourceHolds⟩ :=
    recordValues_appends.run (hdrInit_spec createdSecond).2 others fun call member =>
      positive call (List.mem_append_right _ member)
  rw [List.nil_append] at targetHolds sourceHolds
  exact ⟨target, source, ranFirst, targetConfig, targetHolds, ranSecond, sourceConfig, sourceHolds⟩

/-- Two runs on new histograms, of fewer than `2 ^ 63` values, the second histogram added to
the first. Each value of the second run is taken at the lowest value of its class, and is
dropped if the first histogram does not track that; the others are all answered for. -/
theorem added_accounted {lowest highest lowest' highest' : Int64} {figures figures' : Int32}
    {first second : Histogram} (createdFirst : hdrInit lowest highest figures = .ok first)
    (createdSecond : hdrInit lowest' highest' figures' = .ok second) (calls others : List (ℤ × ℕ))
    (positive : ∀ call ∈ calls ++ others, 0 < call.2)
    (countable : (calls.flatMap (recordValues.values first.config)).length +
      (others.flatMap (recordValues.values second.config)).length < 2 ^ 63) :
    ∃ target source sum, run recordValues.step first calls =
        some (target, calls.map (recordValues.accepts first.config)) ∧
      run recordValues.step second others =
        some (source, others.map (recordValues.accepts second.config)) ∧
      target.hdrAdd source = (((others.flatMap (recordValues.values second.config)).map
        second.config.lowestEquivalentValue).countP fun v => ¬ Tracked first.config (v : ℕ), sum) ∧
      sum.config = first.config ∧
      Answers sum (calls.flatMap (recordValues.values first.config) ++
        ((others.flatMap (recordValues.values second.config)).map
          second.config.lowestEquivalentValue).filter fun v => Tracked first.config (v : ℕ)) ∧
      (target.hdrAdd source).1 + sum.totalCount = target.totalCount + source.totalCount := by
  obtain ⟨target, source, ranFirst, targetConfig, targetHolds, ranSecond, sourceConfig,
    sourceHolds⟩ := both_run createdFirst createdSecond positive
  obtain ⟨sum, added, sumConfig, sumHolds⟩ := hdrAdd_holds targetHolds sourceHolds
  rw [sourceConfig, lowests_slotsOf second.valid, targetConfig] at added
  rw [sourceConfig, lowests_slotsOf second.valid, targetConfig, slotsOf, slotsOf,
    ← List.map_append, ← slotsOf] at sumHolds
  rw [targetConfig] at sumConfig
  have split := List.length_eq_countP_add_countP
    (fun v => decide (Tracked first.config (v : ℕ)))
    (l := (others.flatMap (recordValues.values second.config)).map
      second.config.lowestEquivalentValue)
  simp only [decide_eq_true_eq] at split
  rw [List.length_map] at split
  have answers := sumHolds.answers sumConfig (by
    rw [List.length_append, ← List.countP_eq_length_filter]
    omega)
  refine ⟨target, source, sum, ranFirst, ranSecond, added, sumConfig, answers, ?_⟩
  rw [added, answers.total, List.length_append, ← List.countP_eq_length_filter, targetHolds.total,
    sourceHolds.total, slotsOf, slotsOf, List.length_map, List.length_map]
  omega

/-- The configuration of latencies of up to a second. -/
theorem second_config : hdrCalculateBucketConfig 1 1000000 3 =
    .ok ⟨1, 1000000, 0, 3, 10, 1024, 2047, 2048, 10, 11264⟩ := by
  decide +kernel

/-- Latencies of up to an hour added to a histogram of up to a second. -/
theorem added_accounted_latencies : ∃ first second target source sum,
    hdrInit 1 1000000 3 = .ok first ∧ hdrInit 1 3600000000 3 = .ok second ∧
    run recordValues.step first [(250, 1)] = some (target, [true]) ∧
    run recordValues.step second [(250, 1), (60000000, 2)] = some (source, [true, true]) ∧
    target.hdrAdd source = (2, sum) ∧ Answers sum [250, 250] := by
  obtain ⟨first, createdFirst, firstConfig⟩ := hdrInit_of_config second_config
  obtain ⟨second, createdSecond, secondConfig⟩ := hdrInit_of_config latency_config
  obtain ⟨target, source, sum, ranFirst, ranSecond, added, _, answers, _⟩ :=
    added_accounted createdFirst createdSecond [(250, 1)] [(250, 1), (60000000, 2)] (by decide)
      (by rw [firstConfig, secondConfig]; decide)
  rw [firstConfig] at ranFirst added answers
  rw [secondConfig] at ranSecond added answers
  exact ⟨first, second, target, source, sum, createdFirst, createdSecond, ranFirst, ranSecond, added,
    answers⟩

/-- Between histograms of one configuration nothing is dropped, and the slots are put together. -/
theorem hdrAdd_same {h source : Histogram} {slots sourceSlots : List ℕ} (holds : Holds h slots)
    (sourceHolds : Holds source sourceSlots) (same : source.config = h.config) :
    ∃ sum, h.hdrAdd source = (0, sum) ∧ sum.config = h.config ∧
      Holds sum (slots ++ sourceSlots) := by
  obtain ⟨sum, added, config, held⟩ := hdrAdd_holds holds sourceHolds
  rw [same] at added held
  have allTracked : ∀ v ∈ lowests h.config sourceSlots, Tracked h.config (v : ℕ) := by
    intro v member
    obtain ⟨i, counted, rfl⟩ := List.mem_map.mp member
    have inside := sourceHolds.inside i counted
    rw [same, ← Scale.position_lowest h.config.scale i, position_lt_countsLen_iff h.valid] at inside
    exact ⟨Int.natCast_nonneg _, Int.ofNat_lt.mpr inside⟩
  have noneDropped :
      (lowests h.config sourceSlots).countP (fun v => ¬ Tracked h.config (v : ℕ)) = 0 := by
    rw [List.countP_eq_zero]
    intro v member
    simp [allTracked v member]
  have whole : slotsOf h.config (lowests h.config sourceSlots) = sourceSlots := by
    rw [slotsOf, lowests, List.map_map]
    exact (List.map_congr_left fun i _ => Scale.position_lowest ..).trans (List.map_id _)
  rw [noneDropped] at added
  rw [List.filter_eq_self.mpr fun v member => decide_eq_true (allTracked v member), whole] at held
  exact ⟨sum, added, config, held⟩

/-- Between histograms made with the same arguments nothing is dropped, and the sum gives the
answers, and up to `2 ^ 52` values the percentiles, of one histogram that recorded both
runs. -/
theorem added_as_recorded {lowest highest : Int64} {figures : Int32} {h : Histogram}
    (created : hdrInit lowest highest figures = .ok h) (calls others : List (ℤ × ℕ))
    (positive : ∀ call ∈ calls ++ others, 0 < call.2)
    (countable : ((calls ++ others).flatMap (recordValues.values h.config)).length < 2 ^ 63) :
    ∃ target source sum, run recordValues.step h calls =
        some (target, calls.map (recordValues.accepts h.config)) ∧
      run recordValues.step h others = some (source, others.map (recordValues.accepts h.config)) ∧
      target.hdrAdd source = (0, sum) ∧ sum.config = h.config ∧
      Answers sum ((calls ++ others).flatMap (recordValues.values h.config)) ∧
      (((calls ++ others).flatMap (recordValues.values h.config)).length < 2 ^ 52 →
        Percentiles sum ((calls ++ others).flatMap (recordValues.values h.config))) := by
  obtain ⟨target, source, ranFirst, targetConfig, targetHolds, ranSecond, sourceConfig,
    sourceHolds⟩ := both_run created created positive
  obtain ⟨sum, added, sumConfig, sumHolds⟩ :=
    hdrAdd_same targetHolds sourceHolds (sourceConfig.trans targetConfig.symm)
  rw [targetConfig] at sumConfig
  rw [slotsOf, slotsOf, ← List.map_append, ← List.flatMap_append, ← slotsOf] at sumHolds
  exact ⟨target, source, sum, ranFirst, ranSecond, added, sumConfig,
    sumHolds.answers sumConfig countable, percentiles_of_holds sumConfig sumHolds⟩

/-- The latencies of two clients added. -/
theorem added_as_recorded_latencies : ∃ h target source sum, hdrInit 1 3600000000 3 = .ok h ∧
    run recordValues.step h [(250, 1), (4000, 2)] = some (target, [true, true]) ∧
    run recordValues.step h [(900, 1)] = some (source, [true]) ∧
    target.hdrAdd source = (0, sum) ∧ Answers sum [250, 4000, 4000, 900] := by
  obtain ⟨h, created, config⟩ := hdrInit_of_config latency_config
  obtain ⟨target, source, sum, ranFirst, ranSecond, added, _, answers, _⟩ :=
    added_as_recorded created [(250, 1), (4000, 2)] [(900, 1)] (by decide)
      (by rw [config]; decide)
  rw [config] at ranFirst ranSecond answers
  exact ⟨h, target, source, sum, created, ranFirst, ranSecond, added, answers⟩

end YcsbCloud.Guarantees.HdrMerge
