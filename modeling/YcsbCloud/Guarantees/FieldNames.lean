import YcsbCloud.Source.CoreWorkload
import YcsbCloud.Guarantees.HashtableRefinement

/-!
# The field names of transactions

What loading stores under a key, what a transaction writes there and what it
asks for are named in three places. The written names are names of loaded
fields; the names asked for carry `"field"` twice and never are.
-/
namespace YcsbCloud.Guarantees.FieldNames
open Library Source Source.HashtableDB Source.CoreWorkload Source.Client
open HashtableOwnership HashtableRefinement

/-- The name that a query puts into its `fields`. -/
def queriedName (draw : Nat) : Bytes := field ++ nextFieldName draw

/-- After the first `"field"` a loaded name goes on with a digit, a queried one
with a letter. -/
theorem queriedName_not_loaded (wl : CoreWorkload) (draw : Nat) :
    queriedName draw ∉ wl.loadedNames := by
  intro member
  obtain ⟨i, _, same⟩ := List.mem_map.mp member
  have tails : stdToString i = field ++ stdToString draw := List.append_cancel_left same
  have letter : (102 : UInt8) ∈ stdToString i := by
    rw [tails]
    exact List.mem_append_left _ (by decide)
  exact absurd (stdToString_le i 102 letter) (by decide)

theorem updateValues_loaded {p : Config} {wl : CoreWorkload} (made : Initialized p wl)
    (positive : 1 ≤ p.fieldCount.val) (d : TransactionDraws) (inRange : d.InRange wl) :
    ∀ fieldPair ∈ updateValues wl d, fieldPair.1 ∈ wl.loadedNames := by
  intro fieldPair member
  unfold updateValues at member
  split at member
  · rw [← wl.buildValues_names d.values]
    exact List.mem_map_of_mem member
  · rw [List.mem_singleton.mp member]
    exact (made.canDraw_field positive _).mp inRange.updateField

/-- Every pair that a transaction hands over for writing names a loaded field. -/
theorem written_loaded {p : Config} {wl : CoreWorkload} (made : Initialized p wl)
    (positive : 1 ≤ p.fieldCount.val) (op : Operation) (key : Bytes) (keyNum : Nat)
    (d : TransactionDraws) (inRange : d.InRange wl) :
    ∀ call ∈ doTransaction wl op key keyNum d, ∀ fieldPair ∈ call.values,
      fieldPair.1 ∈ wl.loadedNames := by
  have updates := updateValues_loaded made positive d inRange
  intro call member
  cases op with
  | READ =>
    rw [List.mem_singleton.mp member]
    exact fun _ none => absurd none List.not_mem_nil
  | SCAN =>
    rw [List.mem_singleton.mp member]
    exact fun _ none => absurd none List.not_mem_nil
  | UPDATE =>
    rw [List.mem_singleton.mp member]
    exact updates
  | READMODIFYWRITE =>
    rcases List.mem_pair.mp member with rfl | rfl
    · exact fun _ none => absurd none List.not_mem_nil
    · exact updates
  | INSERT =>
    rw [List.mem_singleton.mp member]
    intro fieldPair written
    rw [← wl.buildValues_names d.values]
    exact List.mem_map_of_mem written

theorem queryFields_loaded_iff (wl : CoreWorkload) (d : TransactionDraws) :
    (∀ name ∈ (queryFields wl d).getD [], name ∈ wl.loadedNames) ↔ wl.readAllFields = true := by
  unfold queryFields
  cases wl.readAllFields with
  | true => simp
  | false =>
    simp only [Bool.not_false, if_true, Option.getD_some, List.mem_singleton, forall_eq,
      Bool.false_eq_true, iff_false]
    exact queriedName_not_loaded wl d.readField

/-- The queries among the transactions ask for loaded fields only when they ask
for all of them. -/
theorem queried_loaded_iff (wl : CoreWorkload) (op : Operation) (key : Bytes) (keyNum : Nat)
    (d : TransactionDraws) :
    (∀ call ∈ doTransaction wl op key keyNum d, ∀ name ∈ call.fields, name ∈ wl.loadedNames) ↔
      wl.readAllFields = true ∨ op = .UPDATE ∨ op = .INSERT := by
  have query := queryFields_loaded_iff wl d
  cases op with
  | READ => simpa [doTransaction, keyedTransaction, transactionRead, Call.fields] using query
  | SCAN => simpa [doTransaction, keyedTransaction, transactionScan, Call.fields] using query
  | READMODIFYWRITE =>
    simpa [doTransaction, keyedTransaction, transactionReadModifyWrite, Call.fields] using query
  | UPDATE => simp [doTransaction, keyedTransaction, transactionUpdate, Call.fields]
  | INSERT => simp [doTransaction, transactionInsert, Call.fields]

section hashtable

variable {H : Type → Type} [StringHashtable H]

/-- The record of a key has the fields that loading gives it, and no others. -/
def HoldsLoaded (s : HashtableDB H) (wl : CoreWorkload) (key : Bytes) : Prop :=
  WellFormed s ∧ ∃ record, records s (keyIndex wl.tableName key) = some record ∧
    ∀ name : CStr, (record name).isSome ↔ name.val ∈ wl.loadedNames

variable [LawfulStringHashtable H] {s : HashtableDB H} {wl : CoreWorkload} {key : Bytes}

theorem loadedNames_cStr (wl : CoreWorkload) (values : Nat → ValueDraw) (name : CStr) :
    name ∈ (fieldPairs (wl.buildValues values)).map Prod.fst ↔ name.val ∈ wl.loadedNames := by
  have names : (fieldPairs (wl.buildValues values)).map Prod.fst = wl.loadedNames.map cStr := by
    rw [← wl.buildValues_names values, fieldPairs, List.map_map, List.map_map]
    rfl
  rw [names, List.mem_map]
  constructor
  · rintro ⟨loaded, member, rfl⟩
    obtain ⟨i, _, rfl⟩ := List.mem_map.mp member
    rw [cStr_val _ (fieldName_nulFree i)]
    exact member
  · intro member
    exact ⟨name.val, member, cStr_coe name⟩

/-- `DoInsert` on an absent key stores the loaded fields. -/
theorem doInsert_holdsLoaded (wf : WellFormed s)
    (absent : records s (keyIndex wl.tableName key) = none) (values : Nat → ValueDraw) :
    ∃ s', Machine.run perform s (doInsert wl key values) = some (s', [⟨.kOK, []⟩]) ∧
      HoldsLoaded s' wl key := by
  have clean : ∀ fieldPair ∈ wl.buildValues values, NulFree fieldPair.1 := by
    intro fieldPair member
    obtain ⟨i, _, rfl⟩ := List.mem_map.mp member
    exact fieldName_nulFree i
  have distinct : ((fieldPairs (wl.buildValues values)).map Prod.fst).Nodup :=
    fieldPairs_nodup clean (by rw [buildValues_names]; exact wl.loadedNames_nodup)
  obtain ⟨s', inserted, becomes⟩ := insert_spec wf wl.tableName key (wl.buildValues values)
  rw [absent, Option.getD_none,
    PartialMap.addUntilPresent_of_absent _ _ distinct fun _ _ => rfl] at inserted becomes
  refine ⟨s', (Machine.run_singleton ..).mpr ⟨_, perform_insert inserted, rfl⟩,
    becomes.wellFormed, _, becomes.record, ?_⟩
  intro name
  dsimp only
  rw [PartialMap.overwrite_eq_lookup _ _ distinct, Option.or_none,
    ← loadedNames_cStr wl values name]
  cases found : (fieldPairs (wl.buildValues values)).lookup name with
  | none => simpa using (PartialMap.lookup_eq_none_iff_not_mem _ _).mp found
  | some value =>
    simp only [Option.isSome_some, true_iff]
    by_contra missing
    rw [(PartialMap.lookup_eq_none_iff_not_mem _ _).mpr missing] at found
    cases found

/-- A read of a single field of a loaded record returns one pair or none. -/
theorem read_single_field (holds : HoldsLoaded s wl key) (name : Bytes) (clean : NulFree name) :
    ∃ pairs, perform s (.read wl.tableName key (some [name])) = some (s, ⟨.kOK, [pairs]⟩) ∧
      (pairs.length = 1 ↔ name ∈ wl.loadedNames) := by
  obtain ⟨wf, record, stored, loaded⟩ := holds
  have returned := read_spec wf wl.tableName key (some [name]) []
  rw [stored] at returned
  obtain ⟨pairs, ran, projects⟩ := returned
  refine ⟨pairs, perform_read ran, ?_⟩
  rw [projects, ← cStr_val name clean, ← loaded (cStr name), cStr_val name clean]
  cases held : record (cStr name) with
  | none => simp [held]
  | some value => simp [held]

end hashtable

/-- The names a transaction asks for and those it writes are names of loaded
fields, and its read of a single field, if it makes one, returns exactly one
pair of a loaded record. -/
def NamesLoadedFields (H : Type → Type) [StringHashtable H] (wl : CoreWorkload) (op : Operation)
    (key : Bytes) (keyNum : Nat) (d : TransactionDraws) : Prop :=
  (∀ call ∈ doTransaction wl op key keyNum d, ∀ name ∈ call.fields, name ∈ wl.loadedNames) ∧
  (∀ call ∈ doTransaction wl op key keyNum d, ∀ fieldPair ∈ call.values,
    fieldPair.1 ∈ wl.loadedNames) ∧
  (∀ name, Call.read wl.tableName key (some [name]) ∈ doTransaction wl op key keyNum d →
    ∀ s : HashtableDB H, HoldsLoaded s wl key → ∃ pair,
      perform s (.read wl.tableName key (some [name])) = some (s, ⟨.kOK, [[pair]]⟩))

/-- Names agree exactly where no transaction asks for a single field: under
`readallfields`, and for updates and inserts. What is written always agrees, and
what loading stores is what the written names are compared with. -/
theorem names_loaded_fields_iff (H : Type → Type) [StringHashtable H] [LawfulStringHashtable H]
    (p : Config) (wl : CoreWorkload) (accepted : init p = .ok wl)
    (positive : 1 ≤ p.fieldCount.val) (op : Operation) (key : Bytes) (keyNum : Nat)
    (d : TransactionDraws) (inRange : d.InRange wl) :
    (NamesLoadedFields H wl op key keyNum d ↔
      p.readAllFields = true ∨ op = .UPDATE ∨ op = .INSERT) ∧
    (∀ call ∈ doTransaction wl op key keyNum d, ∀ fieldPair ∈ call.values,
      fieldPair.1 ∈ wl.loadedNames) ∧
    (∀ s : HashtableDB H, WellFormed s → records s (keyIndex wl.tableName key) = none →
      ∀ values, ∃ s', Machine.run perform s (doInsert wl key values) = some (s', [⟨.kOK, []⟩]) ∧
        HoldsLoaded s' wl key) := by
  have made := init_initialized p wl accepted
  have queried := queried_loaded_iff wl op key keyNum d
  rw [made.readAllFields] at queried
  have written := written_loaded made positive op key keyNum d inRange
  refine ⟨⟨fun names => queried.mp names.1, ?_⟩, written,
    fun s wf absent values => doInsert_holdsLoaded wf absent values⟩
  intro agree
  have loaded := queried.mpr agree
  refine ⟨loaded, written, ?_⟩
  intro name member s holds
  have named : name ∈ wl.loadedNames := loaded _ member name (by simp [Call.fields])
  have clean : NulFree name := by
    obtain ⟨i, _, rfl⟩ := List.mem_map.mp named
    exact fieldName_nulFree i
  obtain ⟨pairs, ran, single⟩ := read_single_field holds name clean
  obtain ⟨pair, rfl⟩ := List.length_eq_one_iff.mp (single.mpr named)
  exact ⟨pair, ran⟩

/-- Properties of a run over records of ten fields. -/
def tenFields (readAllFields : Bool) : Config :=
  { recordCount := 3, operationCount := 1, readAllFields }

/-- The draws that take the first field everywhere. -/
def firstField : TransactionDraws := ⟨0, 0, fun _ => ⟨1, 97⟩, 1⟩

theorem tenFields_inRange (readAllFields : Bool) (wl : CoreWorkload)
    (accepted : init (tenFields readAllFields) = .ok wl) : firstField.InRange wl := by
  have made := init_initialized _ wl accepted
  have first : wl.fieldChooser.canDraw 0 :=
    (made.canDraw_field (show (1 : Int) ≤ 10 by decide) 0).mpr
      ((fieldName_mem_loadedNames ..).mpr (by rw [made.fieldCount]; exact (by decide : 0 < 10)))
  exact ⟨first, first⟩

/-- A transaction that reads all fields. -/
theorem names_loaded_fields_iff_readAll : ∃ wl, init (tenFields true) = .ok wl ∧
    NamesLoadedFields ListTable wl .READ [107] 0 firstField := by
  obtain ⟨wl, accepted⟩ : ∃ wl, init (tenFields true) = .ok wl := ⟨_, rfl⟩
  refine ⟨wl, accepted, ?_⟩
  exact (names_loaded_fields_iff ListTable _ wl accepted (by decide) .READ [107] 0 firstField
    (tenFields_inRange true wl accepted)).1.mpr (.inl rfl)

/-- A transaction that reads one field asks for `fieldfield0`. -/
theorem queries_name_no_loaded_field :
    ¬ ∀ (p : Config) (wl : CoreWorkload), init p = .ok wl → 1 ≤ p.fieldCount.val →
      ∀ (op : Operation) (key : Bytes) (keyNum : Nat) (d : TransactionDraws), d.InRange wl →
        NamesLoadedFields ListTable wl op key keyNum d := by
  intro claimed
  obtain ⟨wl, accepted⟩ : ∃ wl, init (tenFields false) = .ok wl := ⟨_, rfl⟩
  have names := claimed _ wl accepted (by decide) .READ [107] 0 firstField
    (tenFields_inRange false wl accepted)
  have agree := (queried_loaded_iff wl .READ [107] 0 firstField).mp names.1
  rw [(init_initialized _ wl accepted).readAllFields] at agree
  exact absurd agree (by decide)

end YcsbCloud.Guarantees.FieldNames
