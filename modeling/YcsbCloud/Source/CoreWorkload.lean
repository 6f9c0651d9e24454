import Mathlib.Data.List.Nodup
import Mathlib.Tactic.Positivity
import Mathlib.Tactic.NormNum
import YcsbCloud.Library.Binary64
import YcsbCloud.Library.Machine
import YcsbCloud.Source.Db
import YcsbCloud.Source.Generators

/-!
# The workload of `core/core_workload.h` and `core/core_workload.cc`

`Init` takes the parsed property values, the proportions as the rationals that
their doubles stand for, and builds the generators in the source's order. Random
draws are arguments: a function of the workload is a function of what its
generators return. The products of doubles are rounded as doubles are; what
idealises them takes another rounding.
-/
namespace YcsbCloud.Source
open Library

inductive Operation where
  | INSERT | READ | UPDATE | SCAN | READMODIFYWRITE
  deriving DecidableEq, Repr

/-- `requestdistribution`; any other text makes `Init` throw. -/
inductive RequestDistribution where
  | uniform | zipfian | latest | other
  deriving DecidableEq, Repr

/-- `field_len_dist`. -/
inductive FieldLenDistribution where
  | constant | uniform | zipfian | other
  deriving DecidableEq, Repr

/-- `scanlengthdistribution`. -/
inductive ScanLengthDistribution where
  | uniform | zipfian | other
  deriving DecidableEq, Repr

/-- `insertorder`: `hashed`, or any other text, which means ordered. -/
inductive InsertOrder where
  | hashed | ordered
  deriving DecidableEq, Repr

/-- The property values `Init` reads, with the defaults of the source. -/
structure Config where
  table : Bytes := ascii ['u', 's', 'e', 'r', 't', 'a', 'b', 'l', 'e']
  fieldCount : CInt := 10
  fieldLenDist : FieldLenDistribution := .constant
  fieldLength : CInt := 100
  readAllFields : Bool := true
  writeAllFields : Bool := false
  readProportion : ℚ := 95 / 100
  updateProportion : ℚ := 5 / 100
  insertProportion : ℚ := 0
  scanProportion : ℚ := 0
  readModifyWriteProportion : ℚ := 0
  requestDistribution : RequestDistribution := .uniform
  maxScanLength : CInt := 1000
  scanLengthDistribution : ScanLengthDistribution := .uniform
  insertOrder : InsertOrder := .hashed
  insertStart : CInt := 0
  recordCount : CInt
  operationCount : CInt

structure CoreWorkload where
  tableName : Bytes
  fieldCount : CInt
  readAllFields : Bool
  writeAllFields : Bool
  fieldLenGenerator : FieldLenGenerator
  keyGenerator : CounterGenerator
  opChooser : List (Operation × ℚ)
  keyChooser : KeyChooser
  fieldChooser : UniformGenerator
  scanLenChooser : ScanLenChooser
  insertKeySequence : CounterGenerator
  orderedInserts : Bool
  recordCount : Nat

namespace CoreWorkload

def getFieldLenGenerator (p : Config) : Except InitError FieldLenGenerator :=
  match p.fieldLenDist with
  | .constant => .ok (.const (toU64 p.fieldLength.val))
  | .uniform => .ok (.uniform ⟨1, toU64 p.fieldLength.val⟩)
  | .zipfian => do
    let generator ← ZipfianGenerator.make 1 (toU64 p.fieldLength.val)
    return .zipfian generator
  | .other => .error .unknownFieldLengthDistribution

/-- `AddValue` for the operations of positive proportion, in the source's order. -/
def opChooserOf (p : Config) : List (Operation × ℚ) :=
  [(.READ, p.readProportion), (.UPDATE, p.updateProportion), (.INSERT, p.insertProportion),
    (.SCAN, p.scanProportion), (.READMODIFYWRITE, p.readModifyWriteProportion)].filter
    fun value => decide (0 < value.2)

/-- `(int)(op_count * insert_proportion * 2)`, truncated towards zero, where products
are rounded so. -/
def newKeysWith (round : ℚ → ℚ) (opCount : Int) (insertProportion : ℚ) : Except InitError Int :=
  let product := round (round (opCount * insertProportion) * 2)
  let truncated := if 0 ≤ product then ⌊product⌋ else ⌈product⌉
  if -2 ^ 31 ≤ truncated ∧ truncated < 2 ^ 31 then .ok truncated
  else .error .newKeysOutOfRange

def newKeys (opCount : Int) (insertProportion : ℚ) : Except InitError Int :=
  newKeysWith Binary64.round opCount insertProportion

theorem newKeysWith_range {round : ℚ → ℚ} {opCount : Int} {insertProportion : ℚ} {added : Int}
    (converted : newKeysWith round opCount insertProportion = .ok added) :
    -2 ^ 31 ≤ added ∧ added < 2 ^ 31 := by
  dsimp only [newKeysWith] at converted
  generalize round (round (opCount * insertProportion) * 2) = product at converted
  generalize (if 0 ≤ product then ⌊product⌋ else ⌈product⌉) = truncated at converted
  split at converted
  next inRange =>
    cases converted
    exact inRange
  · cases converted

theorem newKeysWith_ok_iff {round : ℚ → ℚ} {opCount : Int} {insertProportion : ℚ}
    (nonneg : 0 ≤ round (round (opCount * insertProportion) * 2)) (added : Int) :
    newKeysWith round opCount insertProportion = .ok added ↔
      added = ⌊round (round (opCount * insertProportion) * 2)⌋ ∧
        round (round (opCount * insertProportion) * 2) < 2 ^ 31 := by
  dsimp only [newKeysWith]
  generalize round (round (opCount * insertProportion) * 2) = product at nonneg
  have floored : 0 ≤ ⌊product⌋ := Int.floor_nonneg.mpr nonneg
  have limit : ⌊product⌋ < 2 ^ 31 ↔ product < 2 ^ 31 := by
    rw [Int.floor_lt]
    norm_num
  simp only [if_pos nonneg]
  split
  next inRange =>
    rw [Except.ok.injEq, eq_comm]
    exact ⟨fun same => ⟨same, limit.mp inRange.2⟩, fun ⟨same, _⟩ => same⟩
  next outside =>
    constructor
    · intro impossible
      cases impossible
    · intro ⟨_, small⟩
      exact absurd ⟨by omega, limit.mpr small⟩ outside

theorem product_nonneg {opCount : Int} {insertProportion : ℚ} (ops : 0 ≤ opCount)
    (proportion : 0 ≤ insertProportion) : (0 : ℚ) ≤ opCount * insertProportion :=
  mul_nonneg (by exact_mod_cast ops) proportion

/-- The double that is truncated. -/
theorem doubled_nonneg {opCount : Int} {insertProportion : ℚ} (ops : 0 ≤ opCount)
    (proportion : 0 ≤ insertProportion) :
    0 ≤ Binary64.round (Binary64.round (opCount * insertProportion) * 2) :=
  Binary64.round_nonneg
    (mul_nonneg (Binary64.round_nonneg (product_nonneg ops proportion)) two_pos.le)

def keyChooserWith (round : ℚ → ℚ) (p : Config) (recordCount : Nat)
    (insertKeySequence : CounterGenerator) : Except InitError KeyChooser :=
  match p.requestDistribution with
  | .uniform => .ok (.uniform ⟨0, subU64 recordCount 1⟩)
  | .zipfian => do
    let added ← newKeysWith round p.operationCount.val p.insertProportion
    let generator ← ScrambledZipfianGenerator.ofNumItems (addU64 recordCount (toU64 added))
    return .scrambledZipfian generator
  | .latest => do
    let zipfian ← SkewedLatestGenerator.make insertKeySequence
    return .skewedLatest zipfian
  | .other => .error .unknownRequestDistribution

def keyChooserOf (p : Config) (recordCount : Nat) (insertKeySequence : CounterGenerator) :
    Except InitError KeyChooser := keyChooserWith Binary64.round p recordCount insertKeySequence

/-- The sum in `size_t` of the records and the inserts expected. -/
theorem addU64_newKeys {round : ℚ → ℚ} {p : Config} (records : 0 ≤ p.recordCount.val) (added : Int)
    (converted : newKeysWith round p.operationCount.val p.insertProportion = .ok added)
    (growing : 0 ≤ added) :
    addU64 (toU64 p.recordCount.val) (toU64 added) = p.recordCount.val.toNat + added.toNat ∧
      p.recordCount.val.toNat + added.toNat < 2 ^ 32 := by
  have upper := p.recordCount.property.2
  have limit := (newKeysWith_range converted).2
  rw [toU64_of_nonneg _ records (by omega), toU64_of_nonneg _ growing (by omega), addU64,
    Nat.mod_eq_of_lt (by omega)]
  exact ⟨rfl, by omega⟩

/-- `Init` hands that sum to the scrambled generator, which wants two items. -/
theorem keyChooserOf_zipfian_iff {p : Config} (zipfian : p.requestDistribution = .zipfian)
    (records : 0 ≤ p.recordCount.val) (added : Int)
    (converted : newKeys p.operationCount.val p.insertProportion = .ok added) (growing : 0 ≤ added)
    (counter : CounterGenerator) (chooser : KeyChooser) :
    keyChooserOf p (toU64 p.recordCount.val) counter = .ok chooser ↔
      chooser = .scrambledZipfian ⟨0, p.recordCount.val.toNat + added.toNat,
        ⟨p.recordCount.val.toNat + added.toNat, 0⟩⟩ ∧
      2 ≤ p.recordCount.val.toNat + added.toNat := by
  obtain ⟨sum, bound⟩ := addU64_newKeys records added converted growing
  have handed := ScrambledZipfianGenerator.ofNumItems_ok_iff
    (p.recordCount.val.toNat + added.toNat) (by omega)
  simp only [keyChooserOf, keyChooserWith, zipfian, Library.Machine.bind_ok_iff]
  constructor
  · intro chosen
    obtain ⟨other, converts, generator, built, returned⟩ := chosen
    rw [newKeys, converts] at converted
    cases converted
    rw [sum, handed] at built
    cases returned
    exact ⟨by rw [built.1], built.2.1⟩
  · intro made
    refine ⟨added, converted, _, ?_, congrArg Except.ok made.1.symm⟩
    rw [sum, handed]
    exact ⟨rfl, made.2, by unfold kMaxNumItems; omega⟩

def scanLenChooserOf (p : Config) : Except InitError ScanLenChooser :=
  match p.scanLengthDistribution with
  | .uniform => .ok (.uniform ⟨toU64 p.maxScanLength.val, toU64 p.maxScanLength.val⟩)
  | .zipfian => do
    let generator ← ZipfianGenerator.make (toU64 p.maxScanLength.val) (toU64 p.maxScanLength.val)
    return .zipfian generator
  | .other => .error .scanLengthDistributionNotAllowed

/-- `CoreWorkload::Init` on a fresh object. -/
def init (p : Config) : Except InitError CoreWorkload := do
  let fieldLenGenerator ← getFieldLenGenerator p
  let recordCount := toU64 p.recordCount.val
  let insertKeySequence := CounterGenerator.set ⟨3⟩ recordCount
  let keyChooser ← keyChooserOf p recordCount insertKeySequence
  let scanLenChooser ← scanLenChooserOf p
  return {
    tableName := p.table
    fieldCount := p.fieldCount
    readAllFields := p.readAllFields
    writeAllFields := p.writeAllFields
    fieldLenGenerator := fieldLenGenerator
    keyGenerator := ⟨toU64 p.insertStart.val⟩
    opChooser := opChooserOf p
    keyChooser := keyChooser
    fieldChooser := ⟨0, toU64 (p.fieldCount.val - 1)⟩
    scanLenChooser := scanLenChooser
    insertKeySequence := insertKeySequence
    orderedInserts := p.insertOrder ≠ .hashed
    recordCount := recordCount
  }

/-- `Init` returns exactly when its three fallible choices do. -/
theorem init_returns_iff (p : Config) :
    (∃ wl, init p = .ok wl) ↔ (∃ generator, getFieldLenGenerator p = .ok generator) ∧
      (∃ chooser, keyChooserOf p (toU64 p.recordCount.val) ⟨toU64 p.recordCount.val⟩ =
        .ok chooser) ∧ ∃ chooser, scanLenChooserOf p = .ok chooser := by
  unfold init
  simp only [Library.Machine.bind_ok_iff]
  constructor
  · intro ⟨_, fieldLenGenerator, made, keyChooser, chosen, scanLenChooser, scanned, _⟩
    exact ⟨⟨fieldLenGenerator, made⟩, ⟨keyChooser, chosen⟩, ⟨scanLenChooser, scanned⟩⟩
  · intro ⟨⟨fieldLenGenerator, made⟩, ⟨keyChooser, chosen⟩, ⟨scanLenChooser, scanned⟩⟩
    exact ⟨_, fieldLenGenerator, made, keyChooser, chosen, scanLenChooser, scanned, rfl⟩

theorem init_chosen (p : Config) (wl : CoreWorkload) (accepted : init p = .ok wl) :
    getFieldLenGenerator p = .ok wl.fieldLenGenerator ∧
      scanLenChooserOf p = .ok wl.scanLenChooser := by
  obtain ⟨fieldLenGenerator, made, accepted⟩ := Library.Machine.bind_success accepted
  obtain ⟨keyChooser, _, accepted⟩ := Library.Machine.bind_success accepted
  obtain ⟨scanLenChooser, scanned, accepted⟩ := Library.Machine.bind_success accepted
  cases accepted
  exact ⟨made, scanned⟩

/-- What `Init` leaves when it returns, whatever the distributions. -/
structure Initialized (p : Config) (wl : CoreWorkload) : Prop where
  tableName : wl.tableName = p.table
  fieldCount : wl.fieldCount = p.fieldCount
  readAllFields : wl.readAllFields = p.readAllFields
  writeAllFields : wl.writeAllFields = p.writeAllFields
  keyGenerator : wl.keyGenerator = ⟨toU64 p.insertStart.val⟩
  opChooser : wl.opChooser = opChooserOf p
  keyChooser :
    keyChooserOf p (toU64 p.recordCount.val) ⟨toU64 p.recordCount.val⟩ = .ok wl.keyChooser
  fieldChooser : wl.fieldChooser = ⟨0, toU64 (p.fieldCount.val - 1)⟩
  insertKeySequence : wl.insertKeySequence = ⟨toU64 p.recordCount.val⟩
  orderedInserts : wl.orderedInserts = decide (p.insertOrder ≠ .hashed)

theorem init_initialized (p : Config) (wl : CoreWorkload) (accepted : init p = .ok wl) :
    Initialized p wl := by
  obtain ⟨fieldLenGenerator, _, accepted⟩ := Library.Machine.bind_success accepted
  obtain ⟨keyChooser, chosen, accepted⟩ := Library.Machine.bind_success accepted
  obtain ⟨scanLenChooser, _, accepted⟩ := Library.Machine.bind_success accepted
  cases accepted
  exact ⟨rfl, rfl, rfl, rfl, rfl, rfl, chosen, rfl, rfl, rfl⟩

/-- `"user"`. -/
def user : Bytes := ascii ['u', 's', 'e', 'r']

/-- `"field"`. -/
def field : Bytes := ascii ['f', 'i', 'e', 'l', 'd']

/-- The number a key name prints: the key number itself, or its hash. -/
def keyNameNumber (wl : CoreWorkload) (keyNum : Nat) : Nat :=
  if !wl.orderedInserts then Utils.hash keyNum else keyNum

def buildKeyName (wl : CoreWorkload) (keyNum : Nat) : Bytes :=
  user ++ stdToString (wl.keyNameNumber keyNum)

/-- The keys that the loop of `NextTransactionKey` can end with, over a counter
that does not move meanwhile. -/
def nextTransactionKeyReturns (wl : CoreWorkload) (ranks : Ranks)
    (insertKeySequence : CounterGenerator) (key : Bytes) : Prop :=
  ∃ keyNum, wl.keyChooser.canDraw ranks insertKeySequence keyNum ∧
    keyNum ≤ insertKeySequence.last ∧ key = wl.buildKeyName keyNum

/-- `"field"` and a number: `BuildValues` and `NextFieldName` spell it alike. -/
def fieldName (n : Nat) : Bytes := field ++ stdToString n

/-- `NextFieldName` on a draw of `field_chooser_`. -/
def nextFieldName (draw : Nat) : Bytes := fieldName draw

/-- What one value takes from the generators: a length and a character. -/
structure ValueDraw where
  length : Nat
  char : UInt8
  deriving DecidableEq, Repr

/-- `append(length, char)`. -/
def ValueDraw.text (d : ValueDraw) : Bytes := List.replicate d.length d.char

def buildValues (wl : CoreWorkload) (draws : Nat → ValueDraw) : List KVPair :=
  (List.range wl.fieldCount.val.toNat).map fun i => (fieldName i, (draws i).text)

def buildUpdate (fieldDraw : Nat) (draw : ValueDraw) : List KVPair :=
  [(nextFieldName fieldDraw, draw.text)]

/-- The names `BuildValues` gives every loaded record. -/
def loadedNames (wl : CoreWorkload) : List Bytes :=
  (List.range wl.fieldCount.val.toNat).map fieldName

theorem buildValues_names (wl : CoreWorkload) (draws : Nat → ValueDraw) :
    (wl.buildValues draws).map Prod.fst = wl.loadedNames := by
  simp only [buildValues, loadedNames, List.map_map, Function.comp_def]

theorem fieldName_inj (n m : Nat) : fieldName n = fieldName m ↔ n = m :=
  append_stdToString_inj field n m

theorem loadedNames_nodup (wl : CoreWorkload) : wl.loadedNames.Nodup :=
  List.Nodup.map (fun n m same => (fieldName_inj n m).mp same) List.nodup_range

theorem fieldName_mem_loadedNames (wl : CoreWorkload) (n : Nat) :
    fieldName n ∈ wl.loadedNames ↔ n < wl.fieldCount.val.toNat := by
  simp only [loadedNames, List.mem_map, List.mem_range, fieldName_inj]
  exact ⟨fun ⟨i, bound, same⟩ => same ▸ bound, fun bound => ⟨n, bound, rfl⟩⟩

/-- The field chooser draws exactly the indices of the loaded fields. -/
theorem Initialized.canDraw_field {p : Config} {wl : CoreWorkload} (made : Initialized p wl)
    (positive : 1 ≤ p.fieldCount.val) (draw : Nat) :
    wl.fieldChooser.canDraw draw ↔ fieldName draw ∈ wl.loadedNames := by
  have upper := p.fieldCount.property.2
  rw [fieldName_mem_loadedNames, made.fieldChooser, made.fieldCount, UniformGenerator.canDraw,
    toU64_of_nonneg _ (by omega) (by omega)]
  dsimp only
  omega

theorem fieldName_nulFree (n : Nat) : NulFree (fieldName n) :=
  NulFree.append (by decide) (stdToString_nulFree n)

theorem buildKeyName_inj (wl : CoreWorkload) (n m : Nat) :
    wl.buildKeyName n = wl.buildKeyName m ↔ wl.keyNameNumber n = wl.keyNameNumber m :=
  append_stdToString_inj user _ _

/-- Key numbers that `int` properties admit have distinct names, hashed or not. -/
theorem buildKeyName_injOn (wl : CoreWorkload) (n m : Nat) (hn : n < 2 ^ 32) (hm : m < 2 ^ 32)
    (same : wl.buildKeyName n = wl.buildKeyName m) : n = m := by
  have numbers := (wl.buildKeyName_inj n m).mp same
  unfold keyNameNumber at numbers
  split at numbers
  · exact Utils.fnvHash64_injOn n m hn hm numbers
  · exact numbers

theorem Initialized.keyGenerator_start {p : Config} {wl : CoreWorkload} (made : Initialized p wl)
    (nonneg : 0 ≤ p.insertStart.val) : wl.keyGenerator.counter = p.insertStart.val.toNat := by
  rw [made.keyGenerator]
  exact toU64_of_nonneg _ nonneg (by have := p.insertStart.property.2; omega)

/-- The bound that `NextTransactionKey` tests, right after `Init`. -/
theorem Initialized.insertKeySequence_last {p : Config} {wl : CoreWorkload}
    (made : Initialized p wl) (positive : 1 ≤ p.recordCount.val) :
    wl.insertKeySequence.last = p.recordCount.val.toNat - 1 := by
  have upper := p.recordCount.property.2
  rw [made.insertKeySequence, toU64_of_nonneg _ (by omega) (by omega)]
  exact last_of_pos _ (by dsimp only; omega) (by dsimp only; omega)

theorem Initialized.insert_chosen {p : Config} {wl : CoreWorkload} (made : Initialized p wl)
    (positive : 0 < p.insertProportion) : Operation.INSERT ∈ wl.opChooser.map Prod.fst := by
  rw [made.opChooser, List.mem_map]
  refine ⟨(.INSERT, p.insertProportion), ?_, rfl⟩
  exact List.mem_filter.mpr ⟨by simp, decide_eq_true positive⟩

theorem Initialized.uniform_keyChooser {p : Config} {wl : CoreWorkload} (made : Initialized p wl)
    (uniform : p.requestDistribution = .uniform) (positive : 1 ≤ p.recordCount.val) :
    wl.keyChooser = .uniform ⟨0, p.recordCount.val.toNat - 1⟩ := by
  have upper := p.recordCount.property.2
  have chosen := made.keyChooser
  rw [keyChooserOf, keyChooserWith, uniform, toU64_of_nonneg _ (by omega) (by omega),
    subU64_of_le _ _ (by omega) (by omega)] at chosen
  exact (Except.ok.inj chosen).symm

/-- The latest chooser that `Init` builds is over the records before the newest. -/
theorem Initialized.latest_keyChooser {p : Config} {wl : CoreWorkload} (made : Initialized p wl)
    (latest : p.requestDistribution = .latest) :
    (∃ zipfian, wl.keyChooser = .skewedLatest zipfian) ∧
      2 ≤ wl.insertKeySequence.last ∧ wl.insertKeySequence.last < kMaxNumItems := by
  have chosen := made.keyChooser
  rw [← made.insertKeySequence, keyChooserOf, keyChooserWith, latest] at chosen
  obtain ⟨generator, built, returned⟩ := Library.Machine.bind_success chosen
  obtain ⟨zipfian, _, checked⟩ := Library.Machine.bind_success built
  split at checked
  next bounds => exact ⟨⟨generator, (Except.ok.inj returned).symm⟩, bounds⟩
  · cases checked

end CoreWorkload

end YcsbCloud.Source
