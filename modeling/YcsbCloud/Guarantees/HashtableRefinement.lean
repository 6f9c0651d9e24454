import YcsbCloud.Library.Machine
import YcsbCloud.Guarantees.HashtableOwnership

/-!
# `HashtableDB` refines a map of maps

Within one table name the driver is a map from keys to records and a record a
map from fields to values. A write that finds the record does what its contract
says, an insert stops at the first field that is there, and a query returns the
projection of what the map holds.
-/
namespace YcsbCloud.Guarantees.HashtableRefinement
open Library Source Source.HashtableDB HashtableOwnership

variable {H : Type → Type} [StringHashtable H]

/-- The pairs a query returns for a record: all fields, each once, or the fields
asked for that are there, in the order of the request. -/
def Projects (record : Record) (fields : Option (List Bytes)) (pairs : List KVPair) : Prop :=
  match fields with
  | none => (pairs.map Prod.fst).Nodup ∧ ∀ name value, (name, value) ∈ pairs ↔
      ∃ field stored : CStr, name = field.val ∧ value = stored.val ∧ record field = some stored
  | some fields => pairs = fields.filterMap fun field =>
      (record (cStr field)).map fun stored => (field, stored.val)

omit [StringHashtable H] in
theorem projectEntries_spec (s : HashtableDB H) (entries : List (CStr × StringRef))
    (live : ∀ entry ∈ entries, ∃ value, s.strings entry.2 = some value) :
    ∃ pairs, s.projectEntries entries = some pairs ∧
      pairs.map Prod.fst = entries.map (fun entry => entry.1.val) ∧
      ∀ name value, (name, value) ∈ pairs ↔ ∃ entry ∈ entries, ∃ stored : CStr,
        name = entry.1.val ∧ value = stored.val ∧ s.strings entry.2 = some stored := by
  induction entries with
  | nil => exact ⟨[], rfl, rfl, by simp⟩
  | cons entry rest ih =>
    obtain ⟨stored, held⟩ := live entry (by simp)
    obtain ⟨pairs, projected, names, members⟩ := ih fun e member => live e (by simp [member])
    refine ⟨(entry.1.val, stored.val) :: pairs, ?_, by rw [List.map_cons, names, List.map_cons], ?_⟩
    · rw [projectEntries]
      simp only [held, projected]
    · intro name value
      rw [List.mem_cons, members, List.exists_mem_cons_iff, Prod.mk.injEq]
      constructor
      · rintro (⟨rfl, rfl⟩ | later)
        · exact .inl ⟨stored, rfl, rfl, held⟩
        · exact .inr later
      · rintro (⟨found, rfl, rfl, here⟩ | later)
        · rw [held, Option.some.injEq] at here
          exact .inl ⟨rfl, by rw [here]⟩
        · exact .inr later

section queries

variable [LawfulStringHashtable H] {s : HashtableDB H} {index : CStr} {ref : TableRef}
  {fieldsOf : H StringRef}

omit [LawfulStringHashtable H] in
theorem projectFields_spec (wf : WellFormed s) (own : fieldTable s index = some fieldsOf)
    (fields : List Bytes) : s.projectFields fieldsOf fields = some (fields.filterMap fun field =>
      (contents s fieldsOf (cStr field)).map fun stored => (field, stored.val)) := by
  induction fields with
  | nil => rfl
  | cons field rest ih =>
    rw [projectFields, List.filterMap_cons, contents]
    cases held : StringHashtable.get fieldsOf (cStr field) with
    | none => simp only [ih, Option.bind_none, Option.map_none]
    | some str =>
      obtain ⟨_, value, live⟩ := wf.live index fieldsOf (cStr field) str own held
      simp only [live, ih, Option.bind_some, Option.map_some]

theorem project_spec (wf : WellFormed s)
    (found : StringHashtable.get s.keyTable index = some ref)
    (here : s.tables ref = some fieldsOf) (fields : Option (List Bytes)) :
    ∃ pairs, s.project ref fields = some pairs ∧
      Projects (contents s fieldsOf) fields pairs := by
  have own := fieldTable_of_get found here
  unfold project
  rw [here]
  cases fields with
  | some fields => exact ⟨_, projectFields_spec wf own fields, rfl⟩
  | none =>
    have sound := LawfulStringHashtable.entries_sound fieldsOf none allEntries
    have complete := LawfulStringHashtable.entries_complete fieldsOf
    have names := LawfulStringHashtable.entries_nodup fieldsOf none allEntries
    obtain ⟨pairs, projected, listed, members⟩ := projectEntries_spec s
      (StringHashtable.entries fieldsOf none allEntries) fun entry member =>
        (wf.live index fieldsOf entry.1 entry.2 own (sound entry member)).2
    refine ⟨pairs, projected, ?_, ?_⟩
    · have values := names.map Subtype.val_injective
      rw [List.map_map] at values
      rw [listed]
      exact values
    · intro name value
      rw [members]
      constructor
      · rintro ⟨entry, member, stored, rfl, rfl, held⟩
        exact ⟨entry.1, stored, rfl, rfl, by rw [contents, sound entry member]; exact held⟩
      · rintro ⟨field, stored, rfl, rfl, held⟩
        unfold contents at held
        cases got : StringHashtable.get fieldsOf field with
        | none =>
          rw [got] at held
          cases held
        | some str =>
          rw [got] at held
          exact ⟨(field, str), complete field str got, stored, rfl, rfl, held⟩

theorem read_spec (wf : WellFormed s) (table key : Bytes) (fields : Option (List Bytes))
    (result : List KVPair) :
    match records s (keyIndex table key) with
    | none => s.read table key fields result = some (.kErrorNoData, result)
    | some record => ∃ pairs, s.read table key fields result = some (.kOK, pairs) ∧
        Projects record fields pairs := by
  unfold HashtableDB.read
  cases found : StringHashtable.get s.keyTable (keyIndex table key) with
  | none => rw [(records_eq_none_iff wf _).mpr found]
  | some ref =>
    obtain ⟨_, fieldsOf, here⟩ := wf.allocated _ ref found
    rw [records_of_get found here]
    obtain ⟨pairs, projected, projects⟩ := project_spec wf found here fields
    exact ⟨pairs, by simp only [projected, Option.map_some], projects⟩

/-- A scan returns the projections of some records of the map, each of another key. -/
theorem scanLoop_spec (wf : WellFormed s) (fields : Option (List Bytes))
    (keyPairs : List (CStr × TableRef))
    (sound : ∀ entry ∈ keyPairs, StringHashtable.get s.keyTable entry.1 = some entry.2) :
    ∃ result, s.scanLoop fields keyPairs = some result ∧
      List.Forall₂ (fun index pairs => ∃ record, records s index = some record ∧
        Projects record fields pairs) (keyPairs.map Prod.fst) result := by
  induction keyPairs with
  | nil => exact ⟨[], rfl, .nil⟩
  | cons entry rest ih =>
    have found := sound entry (by simp)
    obtain ⟨_, fieldsOf, here⟩ := wf.allocated _ _ found
    obtain ⟨pairs, projected, projects⟩ := project_spec wf found here fields
    obtain ⟨result, scanned, all⟩ := ih fun e member => sound e (by simp [member])
    refine ⟨pairs :: result, ?_, .cons ⟨_, records_of_get found here, projects⟩ all⟩
    rw [scanLoop]
    simp only [projected, scanned]

theorem scan_spec (wf : WellFormed s) (table key : Bytes) (len : Int)
    (fields : Option (List Bytes)) :
    ∃ indices result, s.scan table key len fields = some (.kOK, result) ∧ indices.Nodup ∧
      List.Forall₂ (fun index pairs => ∃ record, records s index = some record ∧
        Projects record fields pairs) indices result := by
  obtain ⟨result, scanned, all⟩ := scanLoop_spec wf fields
    (StringHashtable.entries s.keyTable (some (keyIndex table key)) (toU64 len))
    fun entry member => LawfulStringHashtable.entries_sound _ _ _ entry member
  refine ⟨_, result, ?_, LawfulStringHashtable.entries_nodup _ _ _, all⟩
  simp only [scan, scanned, Option.map_some]

end queries

/-- The records of one table name, by key. -/
def view (table : Bytes) (s : HashtableDB H) (key : CStr) : Option Record :=
  records s (keyIndex table key.val)

/-- A map from keys to records under the five calls. -/
def MapStep (before : CStr → Option Record) (call : Call) (reply : Reply)
    (after : CStr → Option Record) : Prop :=
  match call with
  | .update _ key values =>
    reply = ⟨.kOK, []⟩ ∧
    after = Function.update before (cStr key) (some (PartialMap.overwrite
      ((before (cStr key)).getD fun _ => none) (fieldPairs values)))
  | .insert _ key values =>
    let record := (before (cStr key)).getD fun _ => none
    let absent := fun fieldPair : CStr × CStr => (record fieldPair.1).isNone
    reply = ⟨if (fieldPairs values).all absent then .kOK else .kErrorConflict, []⟩ ∧
    after = Function.update before (cStr key)
      (some (PartialMap.overwrite record ((fieldPairs values).takeWhile absent)))
  | .delete _ key =>
    reply = ⟨if (before (cStr key)).isNone then .kErrorNoData else .kOK, []⟩ ∧
    after = Function.update before (cStr key) none
  | .read _ key fields =>
    after = before ∧
    match before (cStr key) with
    | none => reply = ⟨.kErrorNoData, [[]]⟩
    | some record => ∃ pairs, Projects record fields pairs ∧ reply = ⟨.kOK, [pairs]⟩
  | .scan _ _ _ fields =>
    after = before ∧ ∃ keys result, keys.Nodup ∧ reply = ⟨.kOK, result⟩ ∧
      List.Forall₂ (fun key pairs => ∃ record, before key = some record ∧
        Projects record fields pairs) keys result

/-- A call on one table name, all strings NUL-free, that names no field twice. -/
structure Clean (table : Bytes) (call : Call) : Prop where
  table : call.table = table
  key : NulFree call.key
  names : ∀ fieldPair ∈ call.values, NulFree fieldPair.1
  values : ∀ fieldPair ∈ call.values, NulFree fieldPair.2
  fields : ∀ field ∈ call.fields, NulFree field
  distinct : (call.values.map Prod.fst).Nodup

theorem keyIndex_inj {table left right : Bytes} (clean : NulFree table) (hl : NulFree left)
    (hr : NulFree right) (same : keyIndex table left = keyIndex table right) : left = right :=
  List.append_cancel_left (cStr_injective_on _ _ (clean.append hl) (clean.append hr) same)

theorem fieldPairs_nodup {values : List KVPair} (names : ∀ fieldPair ∈ values, NulFree fieldPair.1)
    (distinct : (values.map Prod.fst).Nodup) : ((fieldPairs values).map Prod.fst).Nodup := by
  unfold fieldPairs
  rw [List.map_map]
  refine List.Nodup.map_on ?_ (List.Nodup.of_map Prod.fst distinct)
  intro first member second member' same
  have name : first.1 = second.1 :=
    cStr_injective_on _ _ (names first member) (names second member') same
  exact List.inj_on_of_nodup_map distinct member member' name

/-- The records of a state are those of one table name, and the map holds them. -/
structure Represents (table : Bytes) (s : HashtableDB H) (m : CStr → Option Record) : Prop where
  wellFormed : WellFormed s
  keyed : ∀ index, records s index ≠ none → ∃ key : CStr, index = keyIndex table key.val
  shown : view table s = m

section refinement

variable {table : Bytes} {s s' : HashtableDB H} {m : CStr → Option Record}

/-- What a write makes of a record is what the map gets under its key. -/
theorem Represents.becomes (clean : NulFree table) (represents : Represents table s m)
    {key : Bytes} (cleanKey : NulFree key) {record : Option Record}
    (becomes : Becomes (keyIndex table key) s s' record) :
    Represents table s' (Function.update m (cStr key) record) := by
  have own : keyIndex table key = keyIndex table (cStr key).val := by rw [cStr_val key cleanKey]
  refine ⟨becomes.wellFormed, ?_, ?_⟩
  · intro index present
    by_cases same : index = keyIndex table key
    · exact ⟨cStr key, same.trans own⟩
    · rw [becomes.framed.records same] at present
      exact represents.keyed index present
  · funext other
    by_cases same : other = cStr key
    · subst other
      rw [Function.update_self, view, ← own, becomes.record]
    · have apart : keyIndex table other.val ≠ keyIndex table key := by
        intro shared
        have bytes := keyIndex_inj clean other.property cleanKey shared
        exact same (by rw [← bytes, cStr_coe])
      rw [Function.update_of_ne same, view, becomes.framed.records apart, ← represents.shown]
      rfl

theorem Represents.at_key (represents : Represents table s m) {key : Bytes}
    (cleanKey : NulFree key) : records s (keyIndex table key) = m (cStr key) := by
  rw [← represents.shown, view, cStr_val key cleanKey]

section simulation

variable [LawfulStringHashtable H] {key : Bytes} {values : List KVPair}

/-- A list without repeated names finds no field of a new record. -/
theorem updated_of_distinct (before : Option Record) (pairs : List (CStr × CStr))
    (distinct : (pairs.map Prod.fst).Nodup) :
    updated before pairs = PartialMap.overwrite (before.getD fun _ => none) pairs := by
  cases before with
  | none => exact PartialMap.addMissing_of_absent _ _ distinct fun _ _ => rfl
  | some record => rfl

theorem update_simulates (cleanTable : NulFree table) (represents : Represents table s m)
    (clean : Clean table (.update table key values)) :
    ∃ s' reply m', perform s (.update table key values) = some (s', reply) ∧
      MapStep m (.update table key values) reply m' ∧ Represents table s' m' := by
  have cleanKey : NulFree key := clean.key
  have distinct : ((fieldPairs values).map Prod.fst).Nodup :=
    fieldPairs_nodup clean.names clean.distinct
  obtain ⟨s', ran, becomes⟩ := update_spec represents.wellFormed table key values
  rw [represents.at_key cleanKey, updated_of_distinct _ _ distinct] at becomes
  exact ⟨s', _, _, perform_update ran, ⟨rfl, rfl⟩,
    represents.becomes cleanTable cleanKey becomes⟩

theorem insert_simulates (cleanTable : NulFree table) (represents : Represents table s m)
    (clean : Clean table (.insert table key values)) :
    ∃ s' reply m', perform s (.insert table key values) = some (s', reply) ∧
      MapStep m (.insert table key values) reply m' ∧ Represents table s' m' := by
  have cleanKey : NulFree key := clean.key
  have distinct : ((fieldPairs values).map Prod.fst).Nodup :=
    fieldPairs_nodup clean.names clean.distinct
  obtain ⟨s', ran, becomes⟩ := insert_spec represents.wellFormed table key values
  rw [represents.at_key cleanKey, PartialMap.addUntilPresent_of_distinct _ _ distinct]
    at ran becomes
  exact ⟨s', _, _, perform_insert ran, ⟨rfl, rfl⟩,
    represents.becomes cleanTable cleanKey becomes⟩

theorem delete_simulates (cleanTable : NulFree table) (represents : Represents table s m)
    (clean : Clean table (.delete table key)) :
    ∃ s' reply m', perform s (.delete table key) = some (s', reply) ∧
      MapStep m (.delete table key) reply m' ∧ Represents table s' m' := by
  have cleanKey : NulFree key := clean.key
  obtain ⟨s', ran, becomes⟩ := delete_spec represents.wellFormed table key
  rw [represents.at_key cleanKey] at ran
  exact ⟨s', _, _, perform_delete ran, ⟨rfl, rfl⟩,
    represents.becomes cleanTable cleanKey becomes⟩

theorem read_simulates (represents : Represents table s m) {fields : Option (List Bytes)}
    (clean : Clean table (.read table key fields)) :
    ∃ reply, perform s (.read table key fields) = some (s, reply) ∧
      MapStep m (.read table key fields) reply m := by
  have cleanKey : NulFree key := clean.key
  have returned := read_spec represents.wellFormed table key fields []
  rw [represents.at_key cleanKey] at returned
  cases found : m (cStr key) with
  | none =>
    rw [found] at returned
    exact ⟨_, perform_read returned, rfl, by rw [found]⟩
  | some record =>
    rw [found] at returned
    obtain ⟨pairs, ran, projects⟩ := returned
    exact ⟨_, perform_read ran, rfl, by rw [found]; exact ⟨pairs, projects, rfl⟩⟩

omit [LawfulStringHashtable H] in
/-- Indices of records are indices of keys. -/
theorem Represents.keys_of_present (represents : Represents table s m) {indices : List CStr}
    {result : List (List KVPair)}
    (present : List.Forall₂ (fun index _ => records s index ≠ none) indices result) :
    ∃ keys : List CStr, indices = keys.map fun key => keyIndex table key.val := by
  induction present with
  | nil => exact ⟨[], rfl⟩
  | cons first _ ih =>
    obtain ⟨key, rfl⟩ := represents.keyed _ first
    obtain ⟨keys, rfl⟩ := ih
    exact ⟨key :: keys, rfl⟩

theorem scan_simulates (represents : Represents table s m) (len : Int)
    (fields : Option (List Bytes)) :
    ∃ reply, perform s (.scan table key len fields) = some (s, reply) ∧
      MapStep m (.scan table key len fields) reply m := by
  obtain ⟨indices, result, ran, distinct, all⟩ :=
    scan_spec represents.wellFormed table key len fields
  obtain ⟨keys, rfl⟩ := represents.keys_of_present (all.imp fun index pairs shown => by
    obtain ⟨record, here, _⟩ := shown
    rw [here]
    exact Option.some_ne_none _)
  refine ⟨_, perform_scan ran, rfl, keys, result, List.Nodup.of_map _ distinct, rfl, ?_⟩
  rw [List.forall₂_map_left_iff] at all
  refine all.imp ?_
  intro key pairs ⟨record, here, projects⟩
  exact ⟨record, by rw [← represents.shown]; exact here, projects⟩

/-- Every clean call returns, replies as the map of maps does, and keeps it represented. -/
theorem perform_simulates (cleanTable : NulFree table) (represents : Represents table s m)
    (call : Call) (clean : Clean table call) :
    ∃ s' reply m', perform s call = some (s', reply) ∧ MapStep m call reply m' ∧
      Represents table s' m' := by
  have named := clean.table
  cases call with
  | update table' key values =>
    cases named
    exact update_simulates cleanTable represents clean
  | insert table' key values =>
    cases named
    exact insert_simulates cleanTable represents clean
  | delete table' key =>
    cases named
    exact delete_simulates cleanTable represents clean
  | read table' key fields =>
    cases named
    obtain ⟨reply, ran, step⟩ := read_simulates represents clean
    exact ⟨s, reply, m, ran, step, represents⟩
  | scan table' key len fields =>
    cases named
    obtain ⟨reply, ran, step⟩ := scan_simulates represents len fields
    exact ⟨s, reply, m, ran, step, represents⟩

theorem represents_empty (table : Bytes) :
    Represents table (empty : HashtableDB H) fun _ => none := by
  have unallocated (index : CStr) : records (empty : HashtableDB H) index = none :=
    (records_eq_none_iff wellFormed_empty index).mpr (LawfulStringHashtable.get_new index)
  exact ⟨wellFormed_empty, fun index present => absurd (unallocated index) present,
    funext fun key => unallocated _⟩

end simulation

end refinement

/-- Every run of clean calls on one table name returns, and is a run of the map
of maps: the same replies, and its records at the end. -/
theorem hashtable_refines_map_of_maps (H : Type → Type) [StringHashtable H]
    [LawfulStringHashtable H] (table : Bytes) (cleanTable : NulFree table) (calls : List Call)
    (clean : ∀ call ∈ calls, Clean table call) :
    ∃ (s : HashtableDB H) (replies : List Reply) (m : CStr → Option Record),
      Machine.run perform empty calls = some (s, replies) ∧
      Machine.SpecRun MapStep (fun _ => none) calls replies m ∧ view table s = m := by
  obtain ⟨s, replies, m, ran, specRan, represents⟩ :=
    Machine.run_simulates perform MapStep (Clean table) (Represents table)
      (fun s m call represents clean => perform_simulates cleanTable represents call clean)
      (empty : HashtableDB H) (fun _ => none) calls (represents_empty table) clean
  exact ⟨s, replies, m, ran, specRan, represents.shown⟩

/-- An insert that meets a field of the record, an update of it, the five calls
in one run. -/
def fiveCalls : List Call :=
  [.insert [116] [107] [([97], [1]), ([98], [2])], .update [116] [107] [([98], [3])],
    .insert [116] [107] [([99], [4]), ([97], [5])], .read [116] [107] (some [[97], [100]]),
    .scan [116] [107] 1 none, .delete [116] [107]]

theorem hashtable_refines_map_of_maps_fiveCalls :
    ∃ (s : HashtableDB ListTable) (replies : List Reply) (m : CStr → Option Record),
      Machine.run perform empty fiveCalls = some (s, replies) ∧
      Machine.SpecRun MapStep (fun _ => none) fiveCalls replies m ∧ view [116] s = m := by
  apply hashtable_refines_map_of_maps ListTable [116] (by decide)
  intro call member
  simp only [fiveCalls, List.mem_cons, List.not_mem_nil, or_false] at member
  rcases member with rfl | rfl | rfl | rfl | rfl | rfl <;>
    exact ⟨rfl, by decide, by decide, by decide, by decide, by decide⟩

end YcsbCloud.Guarantees.HashtableRefinement
