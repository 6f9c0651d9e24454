import YcsbCloud.Source.CoreWorkload

/-!
# When `Init` accepts a configuration

Every chooser derives the argument of the zipfian assertion in its own way: from
a pair of bounds, from a counter, from a product of operations and proportion.
The assertions are characterized one by one, for the configurations that the
property descriptions of the workload admit. The keyspace is related to the
proportion with the products taken exactly; acceptance is decided on doubles.
-/
namespace YcsbCloud.Guarantees.WorkloadInit
open Library Source Source.CoreWorkload

/-- The records and twice the expected inserts, rounded down. -/
def keyspace (p : Config) : Nat :=
  p.recordCount.val.toNat + ⌊2 * p.operationCount.val * p.insertProportion⌋₊

/-- The conversion of the exact product. -/
theorem newKeys_exact_iff {p : Config} (ops : 0 ≤ p.operationCount.val)
    (proportion : 0 ≤ p.insertProportion) (added : Int) :
    newKeysWith id p.operationCount.val p.insertProportion = .ok added ↔
      added = ⌊p.operationCount.val * p.insertProportion * 2⌋ ∧
        p.operationCount.val * p.insertProportion * 2 < 2 ^ 31 := by
  have nonneg : 0 ≤ id (id (p.operationCount.val * p.insertProportion) * 2) :=
    mul_nonneg (product_nonneg ops proportion) two_pos.le
  simpa only [id_eq] using newKeysWith_ok_iff nonneg added

theorem keyspace_eq (p : Config) :
    keyspace p = p.recordCount.val.toNat +
      ⌊p.operationCount.val * p.insertProportion * 2⌋.toNat := by
  have product : 2 * p.operationCount.val * p.insertProportion =
      p.operationCount.val * p.insertProportion * 2 := by ring
  rw [keyspace, product, Int.floor_toNat]

/-- Below the limit of the conversion, the sum in `size_t` is the keyspace. -/
theorem addU64_keyspace (p : Config) (records : 0 ≤ p.recordCount.val)
    (ops : 0 ≤ p.operationCount.val) (proportion : 0 ≤ p.insertProportion)
    (small : p.operationCount.val * p.insertProportion * 2 < 2 ^ 31) :
    addU64 (toU64 p.recordCount.val) (toU64 ⌊p.operationCount.val * p.insertProportion * 2⌋) =
      keyspace p ∧ keyspace p < 2 ^ 32 := by
  have converted := (newKeys_exact_iff ops proportion _).mpr ⟨rfl, small⟩
  rw [keyspace_eq]
  exact addU64_newKeys records _ converted
    (Int.floor_nonneg.mpr (mul_nonneg (product_nonneg ops proportion) two_pos.le))

/-- The conversion of the exact product is in range, and what it adds up to is the
number of items of the chooser: large enough for the records and the expected
inserts, small enough for the zipfian generator. -/
structure KeyspaceCovers (p : Config) (added : Int) (generator : ScrambledZipfianGenerator) :
    Prop where
  converted : newKeysWith id p.operationCount.val p.insertProportion = .ok added
  handed : ScrambledZipfianGenerator.ofNumItems
    (addU64 (toU64 p.recordCount.val) (toU64 added)) = .ok generator
  numItems : generator.numItems =
    p.recordCount.val.toNat + ⌊2 * p.operationCount.val * p.insertProportion⌋₊
  rankRange : generator.generator.numItems = generator.numItems
  coversRecords : p.recordCount.val.toNat ≤ generator.numItems
  coversInserts : p.recordCount.val.toNat + ⌊p.operationCount.val * p.insertProportion⌋₊ ≤
    generator.numItems
  belowMax : generator.numItems < kMaxNumItems

theorem keyspaceCovers_of_small (p : Config) (records : 0 ≤ p.recordCount.val)
    (ops : 0 ≤ p.operationCount.val) (proportion : 0 ≤ p.insertProportion)
    (small : p.operationCount.val * p.insertProportion * 2 < 2 ^ 31) (two : 2 ≤ keyspace p) :
    KeyspaceCovers p ⌊p.operationCount.val * p.insertProportion * 2⌋
      ⟨0, keyspace p, ⟨keyspace p, 0⟩⟩ := by
  have product := product_nonneg ops proportion
  obtain ⟨sum, bound⟩ := addU64_keyspace p records ops proportion small
  have below : keyspace p < kMaxNumItems := by
    unfold kMaxNumItems
    omega
  have expected : ⌊p.operationCount.val * p.insertProportion⌋₊ ≤
      ⌊2 * p.operationCount.val * p.insertProportion⌋₊ := Nat.floor_le_floor (by linarith)
  refine ⟨(newKeys_exact_iff ops proportion _).mpr ⟨rfl, small⟩, ?_, rfl, rfl, ?_, ?_, below⟩
  · rw [sum, ScrambledZipfianGenerator.ofNumItems_ok_iff _ (by omega)]
    exact ⟨rfl, two, below⟩
  · dsimp only
    unfold keyspace
    omega
  · dsimp only
    unfold keyspace
    omega

/-- With products that are not rounded, the keyspace covers the data exactly while the
doubled product of operations and insert proportion stays below the limit of `int`,
and it is then what the zipfian chooser of the workload ranges over. -/
theorem keyspace_covers_iff (p : Config) (zipfian : p.requestDistribution = .zipfian)
    (records : 2 ≤ p.recordCount.val) (ops : 0 ≤ p.operationCount.val)
    (proportion : 0 ≤ p.insertProportion ∧ p.insertProportion ≤ 1) :
    (∃ added generator, KeyspaceCovers p added generator ∧ ∀ counter,
      keyChooserWith id p (toU64 p.recordCount.val) counter =
        .ok (.scrambledZipfian generator)) ↔
    p.operationCount.val * p.insertProportion * 2 < 2 ^ 31 := by
  constructor
  · intro ⟨added, _, covers, _⟩
    exact ((newKeys_exact_iff ops proportion.1 added).mp covers.converted).2
  · intro small
    have covers := keyspaceCovers_of_small p (by omega) ops proportion.1 small (by
      unfold keyspace
      omega)
    refine ⟨_, _, covers, ?_⟩
    intro counter
    simp only [keyChooserWith, zipfian, Machine.bind_ok_iff]
    exact ⟨_, covers.converted, _, covers.handed, rfl⟩

/-- A thousand records and as many inserts. -/
theorem keyspace_covers_iff_thousand :
    ∃ added generator, KeyspaceCovers
      { recordCount := 1000, operationCount := 1000, insertProportion := 1
        requestDistribution := .zipfian } added generator := by
  obtain ⟨added, generator, covers, _⟩ := (keyspace_covers_iff
    { recordCount := 1000, operationCount := 1000, insertProportion := 1
      requestDistribution := .zipfian } rfl (by decide) (by decide) (by norm_num)).mpr (by
        have ops : ((1000 : CInt).val : ℚ) = 1000 := rfl
        norm_num [ops])
  exact ⟨added, generator, covers⟩

/-- Half of the `int` range, inserts only: the doubled product is one too large. -/
theorem keyspace_leaves_int :
    ¬ ∀ p : Config, p.requestDistribution = .zipfian → 2 ≤ p.recordCount.val →
      0 ≤ p.operationCount.val → 0 ≤ p.insertProportion ∧ p.insertProportion ≤ 1 →
      ∃ added generator, KeyspaceCovers p added generator := by
  intro claimed
  obtain ⟨added, _, covers⟩ := claimed
    { recordCount := 2, operationCount := 1073741824, insertProportion := 1
      requestDistribution := .zipfian } rfl (by decide) (by decide) (by norm_num)
  have small := ((newKeys_exact_iff (by decide) (by norm_num) added).mp covers.converted).2
  have ops : ((1073741824 : CInt).val : ℚ) = 1073741824 := rfl
  norm_num [ops] at small

def proportions (p : Config) : List ℚ :=
  [p.readProportion, p.updateProportion, p.insertProportion, p.scanProportion,
    p.readModifyWriteProportion]

/-- The configurations that the property descriptions admit. -/
structure Documented (p : Config) : Prop where
  records : 1 ≤ p.recordCount.val
  operations : 0 ≤ p.operationCount.val
  fields : 1 ≤ p.fieldCount.val
  fieldLength : 1 ≤ p.fieldLength.val
  scanLength : 1 ≤ p.maxScanLength.val
  total : p.recordCount.val + 2 * p.operationCount.val < 2 ^ 31
  requests : p.requestDistribution ≠ .other
  fieldLengths : p.fieldLenDist ≠ .other
  scanLengths : p.scanLengthDistribution ≠ .other
  proportions : ∀ share ∈ proportions p, 0 ≤ share ∧ share ≤ 1
  chosen : ∃ share ∈ WorkloadInit.proportions p, share ≠ 0

/-- What `std::uniform_int_distribution` requires of its bounds, for each uniform
generator of the workload. -/
structure ProperRanges (wl : CoreWorkload) : Prop where
  fieldLength : ∀ generator, wl.fieldLenGenerator = .uniform generator →
    generator.min ≤ generator.max
  key : ∀ generator, wl.keyChooser = .uniform generator → generator.min ≤ generator.max
  field : wl.fieldChooser.min ≤ wl.fieldChooser.max
  scanLength : ∀ generator, wl.scanLenChooser = .uniform generator →
    generator.min ≤ generator.max

theorem Documented.insertProportion {p : Config} (documented : Documented p) :
    0 ≤ p.insertProportion ∧ p.insertProportion ≤ 1 :=
  documented.proportions _ (by simp [WorkloadInit.proportions])

/-- The records and twice the expected inserts, with the products of doubles. -/
def doubleKeyspace (p : Config) : Nat :=
  p.recordCount.val.toNat + ⌊Binary64.round
    (Binary64.round (p.operationCount.val * p.insertProportion) * 2)⌋₊

/-- Rounding keeps the product within what the bounds on the counts allow. -/
theorem Documented.small {p : Config} (documented : Documented p) :
    Binary64.round (Binary64.round (p.operationCount.val * p.insertProportion) * 2) < 2 ^ 31 := by
  have lower := documented.operations
  have records := documented.records
  have total := documented.total
  have ops : (0 : ℚ) ≤ p.operationCount.val := by exact_mod_cast lower
  have scaled := mul_le_of_le_one_right ops documented.insertProportion.2
  have first := Binary64.round_le (Binary64.representable_intCast (abs_lt.mpr (by omega))) scaled
  have second : Binary64.round (Binary64.round (p.operationCount.val * p.insertProportion) * 2) ≤
      ((p.operationCount.val * 2 : Int) : ℚ) := by
    refine Binary64.round_le (Binary64.representable_intCast (abs_lt.mpr (by omega))) ?_
    push_cast
    linarith
  refine lt_of_le_of_lt second ?_
  exact_mod_cast (by omega : p.operationCount.val * 2 < 2 ^ 31)

theorem fieldLen_accepted_iff (p : Config) (documented : Documented p) :
    (∃ generator, getFieldLenGenerator p = .ok generator) ↔
      (p.fieldLenDist = .zipfian → 2 ≤ p.fieldLength.val) := by
  have lower := documented.fieldLength
  have upper := p.fieldLength.property.2
  have length := toU64_of_nonneg p.fieldLength.val (by omega) (by omega)
  unfold getFieldLenGenerator
  split
  case h_1 named | h_2 named => simp [named]
  case h_3 named =>
    simp only [named, Machine.bind_ok_iff, length,
      ZipfianGenerator.make_ok_iff 1 _ (by omega : 1 ≤ p.fieldLength.val.toNat) (by omega)]
    unfold kMaxNumItems
    constructor
    · intro ⟨_, _, ⟨_, two, _⟩, _⟩ _
      omega
    · intro two
      have := two trivial
      exact ⟨_, _, ⟨rfl, by omega, by omega⟩, rfl⟩
  case h_4 named => exact absurd named documented.fieldLengths

theorem keyChooser_accepted_iff (p : Config) (documented : Documented p) :
    (∃ chooser, keyChooserOf p (toU64 p.recordCount.val) ⟨toU64 p.recordCount.val⟩ =
      .ok chooser) ↔
      (p.requestDistribution = .zipfian → 2 ≤ doubleKeyspace p) ∧
      (p.requestDistribution = .latest → 3 ≤ p.recordCount.val) := by
  have lower := documented.records
  have upper := p.recordCount.property.2
  have records := toU64_of_nonneg p.recordCount.val (by omega) (by omega)
  have proportion := documented.insertProportion
  cases named : p.requestDistribution with
  | uniform => simp [keyChooserOf, keyChooserWith, named]
  | zipfian =>
    have nonneg := doubled_nonneg documented.operations proportion.1
    have converted := (newKeysWith_ok_iff nonneg _).mpr ⟨rfl, documented.small⟩
    have chosen := keyChooserOf_zipfian_iff named (by omega) _ converted
      (Int.floor_nonneg.mpr nonneg)
    simp [chosen, doubleKeyspace, Int.floor_toNat]
  | latest =>
    have last : CounterGenerator.last ⟨toU64 p.recordCount.val⟩ = p.recordCount.val.toNat - 1 := by
      rw [records]
      exact last_of_pos _ (by dsimp only; omega) (by dsimp only; omega)
    simp only [keyChooserOf, keyChooserWith, named, Machine.bind_ok_iff,
      SkewedLatestGenerator.make_ok_iff _ (by rw [last]; omega), last]
    unfold kMaxNumItems
    constructor
    · intro accepted
      obtain ⟨_, _, ⟨_, two, _⟩, _⟩ := accepted
      exact ⟨by simp, fun _ => by omega⟩
    · intro bounds
      have three := bounds.2 trivial
      exact ⟨_, _, ⟨rfl, by omega, by omega⟩, rfl⟩
  | other => exact absurd named documented.requests

/-- The zipfian scan length is built over a range of one item. -/
theorem scanLen_accepted_iff (p : Config) (documented : Documented p) :
    (∃ chooser, scanLenChooserOf p = .ok chooser) ↔ p.scanLengthDistribution ≠ .zipfian := by
  have upper := p.maxScanLength.property.2
  have lower := documented.scanLength
  have length := toU64_of_nonneg p.maxScanLength.val (by omega) (by omega)
  unfold scanLenChooserOf
  split
  case h_1 named => simp [named]
  case h_2 named =>
    simp only [named, Machine.bind_ok_iff, length,
      ZipfianGenerator.make_ok_iff _ _ (Nat.le_refl p.maxScanLength.val.toNat) (by omega)]
    simp
  case h_3 named => exact absurd named documented.scanLengths

theorem properRanges_of_documented (p : Config) (documented : Documented p) (wl : CoreWorkload)
    (accepted : init p = .ok wl) : ProperRanges wl := by
  have made := init_initialized p wl accepted
  obtain ⟨lengths, scans⟩ := init_chosen p wl accepted
  have records := documented.records
  have fields := documented.fields
  have fieldLength := documented.fieldLength
  have recordsUpper := p.recordCount.property.2
  have fieldLengthUpper := p.fieldLength.property.2
  constructor
  · intro generator uniform
    rw [uniform, getFieldLenGenerator] at lengths
    split at lengths
    · cases lengths
    · cases lengths
      rw [toU64_of_nonneg _ (by omega) (by omega)]
      dsimp only
      omega
    · obtain ⟨_, _, returned⟩ := Machine.bind_success lengths
      cases returned
    · cases lengths
  · intro generator uniform
    have chosen := made.keyChooser
    rw [uniform, keyChooserOf, keyChooserWith] at chosen
    split at chosen
    · cases chosen
      exact Nat.zero_le _
    · obtain ⟨_, _, chosen⟩ := Machine.bind_success chosen
      obtain ⟨_, _, chosen⟩ := Machine.bind_success chosen
      cases chosen
    · obtain ⟨_, _, chosen⟩ := Machine.bind_success chosen
      cases chosen
    · cases chosen
  · rw [made.fieldChooser]
    exact Nat.zero_le _
  · intro generator uniform
    rw [uniform, scanLenChooserOf] at scans
    split at scans
    · cases scans
      exact Nat.le_refl _
    · obtain ⟨_, _, returned⟩ := Machine.bind_success scans
      cases returned
    · cases scans

/-- A documented configuration initialises, with generators over proper ranges,
exactly when it asks for no zipfian scan length, for zipfian field lengths only
above one, for zipfian requests only over a keyspace of two, and for the latest
records only among three. -/
theorem documented_accepted_iff (p : Config) (documented : Documented p) :
    (∃ wl, init p = .ok wl ∧ ProperRanges wl) ↔
      p.scanLengthDistribution ≠ .zipfian ∧
      (p.fieldLenDist = .zipfian → 2 ≤ p.fieldLength.val) ∧
      (p.requestDistribution = .zipfian →
        2 ≤ p.recordCount.val.toNat + ⌊Binary64.round
          (Binary64.round (p.operationCount.val * p.insertProportion) * 2)⌋₊) ∧
      (p.requestDistribution = .latest → 3 ≤ p.recordCount.val) := by
  have returns : (∃ wl, init p = .ok wl ∧ ProperRanges wl) ↔ ∃ wl, init p = .ok wl :=
    ⟨fun ⟨wl, accepted, _⟩ => ⟨wl, accepted⟩,
      fun ⟨wl, accepted⟩ => ⟨wl, accepted, properRanges_of_documented p documented wl accepted⟩⟩
  rw [returns, init_returns_iff, fieldLen_accepted_iff p documented,
    keyChooser_accepted_iff p documented, scanLen_accepted_iff p documented]
  unfold doubleKeyspace
  constructor
  · intro ⟨fieldLengths, ⟨keys, latest⟩, scans⟩
    exact ⟨scans, fieldLengths, keys, latest⟩
  · intro ⟨scans, fieldLengths, keys, latest⟩
    exact ⟨fieldLengths, ⟨keys, latest⟩, scans⟩

/-- The default properties over so many records and operations. -/
def defaultConfig (recordCount operationCount : CInt) : Config := { recordCount, operationCount }

theorem documented_defaultConfig (recordCount operationCount : CInt)
    (records : 1 ≤ recordCount.val) (operations : 0 ≤ operationCount.val)
    (total : recordCount.val + 2 * operationCount.val < 2 ^ 31) :
    Documented (defaultConfig recordCount operationCount) where
  records := records
  operations := operations
  fields := (by decide : 1 ≤ (10 : CInt).val)
  fieldLength := (by decide : 1 ≤ (100 : CInt).val)
  scanLength := (by decide : 1 ≤ (1000 : CInt).val)
  total := total
  requests := (by decide : RequestDistribution.uniform ≠ .other)
  fieldLengths := (by decide : FieldLenDistribution.constant ≠ .other)
  scanLengths := (by decide : ScanLengthDistribution.uniform ≠ .other)
  proportions := by norm_num [proportions, defaultConfig]
  chosen := ⟨95 / 100, by simp [proportions, defaultConfig], by norm_num⟩

/-- The defaults initialise over one record. -/
theorem documented_accepted_iff_one : ∃ wl, init (defaultConfig 1 0) = .ok wl ∧ ProperRanges wl :=
  (documented_accepted_iff (defaultConfig 1 0)
    (documented_defaultConfig 1 0 (by decide) (by decide) (by decide))).mpr
    ⟨by decide, by decide, by decide, by decide⟩

/-- A thousand records whose scan lengths are to favour short scans. -/
theorem zipfian_scans_refused :
    ¬ ∀ p : Config, Documented p → ∃ wl, init p = .ok wl ∧ ProperRanges wl := by
  intro claimed
  have defaults := documented_defaultConfig 1000 1000 (by decide) (by decide) (by decide)
  have documented :
      Documented { defaultConfig 1000 1000 with scanLengthDistribution := .zipfian } :=
    { defaults with scanLengths := (by decide : ScanLengthDistribution.zipfian ≠ .other) }
  obtain ⟨wl, accepted, _⟩ := claimed _ documented
  have scans := (init_chosen _ wl accepted).2
  exact (scanLen_accepted_iff _ documented).mp ⟨_, scans⟩ rfl

end YcsbCloud.Guarantees.WorkloadInit
