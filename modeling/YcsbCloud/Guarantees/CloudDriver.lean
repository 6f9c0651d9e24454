import Mathlib.Data.List.Induction
import YcsbCloud.Library.PartialMap
import YcsbCloud.Source.RocksDBCloud

/-!
# `RocksDBCloud` as a record store

What the driver stores is the last list written to a key, byte for byte. That is
enough for whole-record writes, and it is not the interface's update: a list
that does not name every field of the record takes the other fields away.
-/
namespace YcsbCloud.Guarantees.CloudDriver
open Library Source Source.RecordCodec Source.RocksDBCloud Source.CoreWorkload Source.Client

/-- The record of two fields that the fixed inputs below start from. -/
def twoFields : List KVPair := [(fieldName 0, [97]), (fieldName 1, [98])]

theorem twoFields_storable : Storable twoFields := ⟨by decide, by decide⟩

/-- Runs of calls whose written lists a record can hold, updates of a whole
record among them. Every such run returns; each read of it, and a read after
it, finds the last list written to the key, in order, or nothing. No read
changes what another read returns, and neither does a call on another key. -/
theorem reads_return_last_written (calls : List Call) (storable : ∀ c ∈ calls, Storable c.values) :
    ∃ s replies, Machine.run perform empty calls = some (s, replies) ∧
      (∀ (i : Nat) (table key : Bytes), calls[i]? = some (.read table key none) →
        replies[i]? = some ⟨.kOK, [(lastWritten (calls.take i) key).getD []]⟩) ∧
      (∀ table key, s.readAll table key = some (.kOK, (lastWritten calls key).getD [])) ∧
      (∀ table key fields, ∃ s' reply, perform s (.read table key fields) = some (s', reply) ∧
        ∀ table key, s'.readAll table key = s.readAll table key) ∧
      (∀ call, Storable call.values → ∃ s' reply, perform s call = some (s', reply) ∧
        ∀ table key, key ≠ call.key → s'.readAll table key = s.readAll table key) := by
  obtain ⟨s, replies, ran, holds, replied⟩ := run_holds_lastWritten calls storable
  refine ⟨s, replies, ran, ?_, holds.readAll, ?_, ?_⟩
  · intro i table key here
    exact replied i _ here
  · intro table key fields
    obtain ⟨s', reply, after, moved, ⟨rfl, _⟩, holds'⟩ :=
      perform_simulates s _ (.read table key fields) holds storable_nil
    refine ⟨s', reply, moved, ?_⟩
    intro table queried
    rw [holds'.readAll, holds.readAll]
    rfl
  · intro call written
    obtain ⟨s', reply, after, moved, ⟨rfl, _⟩, holds'⟩ :=
      perform_simulates s _ call holds written
    refine ⟨s', reply, moved, ?_⟩
    intro table queried different
    rw [holds'.readAll, holds.readAll]
    cases call <;> simp only [recordAfter, Call.key] at different ⊢ <;>
      rw [if_neg (Ne.symm different)]

/-- An inserted record, read back after an update of all its fields. -/
theorem reads_return_last_written_twoFields :
    ∃ s replies, Machine.run perform empty
        [.insert [] [107] twoFields, .update [] [107] twoFields.reverse, .read [] [107] none] =
          some (s, replies) ∧
      replies[2]? = some ⟨.kOK, [twoFields.reverse]⟩ := by
  obtain ⟨s, replies, ran, replied, _⟩ := reads_return_last_written
    [.insert [] [107] twoFields, .update [] [107] twoFields.reverse, .read [] [107] none] (by
      intro c member
      simp only [List.mem_cons, List.not_mem_nil, or_false] at member
      rcases member with rfl | rfl | rfl
      · exact twoFields_storable
      · exact ⟨by decide, by decide⟩
      · exact storable_nil)
  exact ⟨s, replies, ran, replied 2 [] [107] rfl⟩

/-- The contract of `DB::Update` at one store: the pairs given are written to
the record, and its other fields keep their values. -/
def UpdateContract (s : RocksDBCloud) (table key : Bytes) (old values : List KVPair) : Prop :=
  ∃ s' result, s.update table key values = some (s', .kOK) ∧
    s'.readAll table key = some (.kOK, result) ∧
    ∀ name, result.lookup name = (values.lookup name).or (old.lookup name)

/-- A transaction that writes one field reads back every other field of the
record it was made on. -/
def KeepsOtherFields (wl : CoreWorkload) (s : RocksDBCloud) (op : Operation) (key : Bytes)
    (d : TransactionDraws) (old : List KVPair) : Prop :=
  ∃ s' replies result, Machine.run perform s (keyedTransaction wl op key d) = some (s', replies) ∧
    s'.readAll wl.tableName key = some (.kOK, result) ∧
    ∀ name ∈ old.map Prod.fst, name ≠ nextFieldName d.updateField →
      result.lookup name = old.lookup name

/-- Every field of the record is named in the list. -/
def Covers (values old : List KVPair) : Prop :=
  ∀ name ∈ old.map Prod.fst, name ∈ values.map Prod.fst

/-- Where the list covers the record, looking a field up in the list alone is
looking it up in the updated record, and nowhere else. -/
theorem lookup_covers_iff (values old : List KVPair) :
    (∀ name, values.lookup name = (values.lookup name).or (old.lookup name)) ↔
      Covers values old := by
  constructor
  · intro same name named
    by_contra absent
    have unwritten := (PartialMap.lookup_eq_none_iff_not_mem values name).mpr absent
    have kept : none = (none : Option Bytes).or (old.lookup name) := unwritten ▸ same name
    exact (PartialMap.lookup_eq_none_iff_not_mem old name).mp kept.symm named
  · intro covers name
    cases written : values.lookup name with
    | some value => rfl
    | none =>
      have absent := (PartialMap.lookup_eq_none_iff_not_mem values name).mp written
      have unnamed : old.lookup name = none :=
        (PartialMap.lookup_eq_none_iff_not_mem old name).mpr
          (fun named => absent (covers name named))
      rw [unnamed]
      rfl

/-- After an update a read returns the given list and nothing of the old record. -/
theorem readAll_update (s : RocksDBCloud) (table key : Bytes) (values : List KVPair)
    (storable : Storable values) :
    ∃ s', s.update table key values = some (s', .kOK) ∧
      s'.readAll table key = some (.kOK, values) := by
  refine ⟨_, insert_storable s table key values storable, ?_⟩
  simp only [readAll, RocksDBCloud.read, getElem?_insert, if_pos,
    deSerializeValues_encodeRecord values [] storable, List.nil_append, Option.map_some]

theorem updateContract_iff (s : RocksDBCloud) (table key : Bytes) (old values : List KVPair)
    (storable : Storable values) :
    UpdateContract s table key old values ↔ Covers values old := by
  obtain ⟨s', updated, found⟩ := readAll_update s table key values storable
  rw [← lookup_covers_iff]
  constructor
  · rintro ⟨s'', result, updated', found', contract⟩
    rw [updated, Option.some.injEq, Prod.mk.injEq] at updated'
    obtain ⟨rfl, _⟩ := updated'
    rw [found, Option.some.injEq, Prod.mk.injEq] at found'
    obtain ⟨_, rfl⟩ := found'
    exact contract
  · intro contract
    exact ⟨s', values, updated, found, contract⟩

/-- A list the 32-bit counter cannot count is never written. -/
theorem updateContract_count (s : RocksDBCloud) (table key : Bytes) (old values : List KVPair)
    (contract : UpdateContract s table key old values) : values.length < 2 ^ 32 := by
  obtain ⟨s', _, updated, _⟩ := contract
  rw [← serializeValues_isSome_iff]
  unfold update RocksDBCloud.insert at updated
  cases serialized : serializeValues values with
  | none => simp [serialized] at updated
  | some value => rfl

/-- What the interface promises about the record of a key, field by field. -/
def documentedAfter (key : Bytes) (before : Option (Bytes → Option Bytes)) :
    Call → Option (Bytes → Option Bytes)
  | .insert _ written values =>
    if written = key then some (PartialMap.overwrite (fun _ => none) values) else before
  | .update _ written values =>
    if written = key then some (PartialMap.overwrite (before.getD fun _ => none) values)
    else before
  | .delete _ deleted => if deleted = key then none else before
  | .read .. | .scan .. => before

def documented (calls : List Call) (key : Bytes) : Option (Bytes → Option Bytes) :=
  calls.foldl (documentedAfter key) none

/-- Every update of the run names all fields of the record it is given to. -/
def CoveringUpdates (calls : List Call) : Prop :=
  ∀ before table key values after, calls = before ++ .update table key values :: after →
    ∀ old, lastWritten before key = some old → Covers values old

theorem CoveringUpdates.earlier {before after : List Call}
    (covering : CoveringUpdates (before ++ after)) : CoveringUpdates before := by
  intro pre table key values post split
  exact covering pre table key values (post ++ after) (by rw [split]; simp)

/-- In a run whose updates cover, the list stored is the record documented. The
induction adds the last call of the run. -/
theorem lastWritten_documented (calls : List Call)
    (distinct : ∀ c ∈ calls, (c.values.map Prod.fst).Nodup) (covering : CoveringUpdates calls)
    (key : Bytes) :
    (lastWritten calls key).map (fun kvs name => kvs.lookup name) = documented calls key := by
  induction calls using List.reverseRecOn with
  | nil => rfl
  | append_singleton before call ih =>
    have earlier := ih (fun c member => distinct c (by simp [member])) covering.earlier
    have names := distinct call (by simp)
    simp only [lastWritten, documented, List.foldl_append, List.foldl_cons, List.foldl_nil]
      at earlier ⊢
    cases call with
    | read table written fields => exact earlier
    | scan table written len fields => exact earlier
    | delete table deleted =>
      simp only [recordAfter, documentedAfter]
      split
      · rfl
      · exact earlier
    | insert table written values =>
      simp only [Call.values] at names
      simp only [recordAfter, documentedAfter]
      split
      · rw [Option.map_some]
        congr 1
        funext name
        rw [PartialMap.overwrite_eq_lookup _ _ names, Option.or_none]
      · exact earlier
    | update table written values =>
      simp only [Call.values] at names
      simp only [recordAfter, documentedAfter]
      split
      next same =>
        subst written
        rw [← earlier, Option.map_some]
        congr 1
        funext name
        rw [PartialMap.overwrite_eq_lookup _ _ names]
        cases stored : lastWritten before key with
        | none =>
          simp only [lastWritten] at stored
          rw [stored, Option.map_none, Option.getD_none, Option.or_none]
        | some old =>
          have covers := covering before table key values [] rfl old stored
          simp only [lastWritten] at stored
          rw [stored, Option.map_some, Option.getD_some]
          exact (lookup_covers_iff values old).mpr covers name
      · exact earlier

/-- Where the updates of a run cover, every read returns the documented record. -/
theorem covering_run_documented (calls : List Call)
    (writable : ∀ c ∈ calls, Storable c.values ∧ (c.values.map Prod.fst).Nodup)
    (covering : CoveringUpdates calls) :
    ∃ s replies, Machine.run perform empty calls = some (s, replies) ∧
      ∀ table key, ∃ result, s.readAll table key = some (.kOK, result) ∧
        ∀ name, result.lookup name = (documented calls key).bind (· name) := by
  obtain ⟨s, replies, ran, holds, _⟩ :=
    run_holds_lastWritten calls fun c member => (writable c member).1
  refine ⟨s, replies, ran, ?_⟩
  intro table key
  refine ⟨_, holds.readAll table key, ?_⟩
  intro name
  have record := lastWritten_documented calls (fun c member => (writable c member).2) covering key
  rw [← record]
  cases lastWritten calls key <;> rfl

/-- On a record that decodes, both updating transactions come down to one update
of the single pair that `BuildUpdate` makes. -/
theorem transaction_update (wl : CoreWorkload) (s : RocksDBCloud) (op : Operation)
    (key value : Bytes) (d : TransactionDraws) (old : List KVPair) (offset : Nat)
    (updating : op = .UPDATE ∨ op = .READMODIFYWRITE)
    (stored : s.db[key]? = some value) (decoded : deSerializeValues value [] = .ok (old, offset))
    (storable : Storable (updateValues wl d)) :
    ∃ s' replies, Machine.run perform s (keyedTransaction wl op key d) = some (s', replies) ∧
      s'.readAll wl.tableName key = some (.kOK, updateValues wl d) := by
  obtain ⟨s', updated, found⟩ := readAll_update s wl.tableName key (updateValues wl d) storable
  have performed :
      perform s (.update wl.tableName key (updateValues wl d)) = some (s', ⟨.kOK, []⟩) := by
    simp only [perform, updated, Option.map_some]
  rcases updating with rfl | rfl
  · exact ⟨s', _, (Machine.run_singleton ..).mpr ⟨_, performed, rfl⟩, found⟩
  · have read : perform s (.read wl.tableName key (queryFields wl d)) =
        some (s, ⟨.kOK, [old]⟩) := by
      simp only [perform, RocksDBCloud.read, stored, decoded, Option.map_some]
    have ran : Machine.run perform s (transactionReadModifyWrite wl key d) =
        some (s', [⟨.kOK, [old]⟩, ⟨.kOK, []⟩]) := by
      apply (Machine.run_cons ..).mpr
      exact ⟨s, _, _, read, (Machine.run_singleton ..).mpr ⟨_, performed, rfl⟩, rfl⟩
    exact ⟨s', _, ran, found⟩

/-- A single pair leaves nothing out of a record of loaded fields only when the
record has one field. -/
theorem keepsOtherFields_iff (p : Config) (wl : CoreWorkload) (made : Initialized p wl)
    (positive : 1 ≤ p.fieldCount.val) (partly : p.writeAllFields = false) (s : RocksDBCloud)
    (op : Operation) (key value : Bytes) (d : TransactionDraws) (old : List KVPair) (offset : Nat)
    (updating : op = .UPDATE ∨ op = .READMODIFYWRITE)
    (stored : s.db[key]? = some value) (decoded : deSerializeValues value [] = .ok (old, offset))
    (loaded : old.map Prod.fst = wl.loadedNames) (drawn : wl.fieldChooser.canDraw d.updateField)
    (storable : Storable (updateValues wl d)) :
    KeepsOtherFields wl s op key d old ↔ p.fieldCount.val = 1 := by
  obtain ⟨s', replies, ran, found⟩ :=
    transaction_update wl s op key value d old offset updating stored decoded storable
  have single : updateValues wl d = buildUpdate d.updateField (d.values 0) := by
    rw [updateValues, if_neg (by simp [made.writeAllFields, partly])]
  have inRange := (fieldName_mem_loadedNames ..).mp ((made.canDraw_field positive _).mp drawn)
  rw [made.fieldCount] at inRange
  constructor
  · rintro ⟨s'', replies', result, ran', found', kept⟩
    rw [ran, Option.some.injEq, Prod.mk.injEq] at ran'
    obtain ⟨rfl, _⟩ := ran'
    rw [found, Option.some.injEq, Prod.mk.injEq] at found'
    obtain ⟨_, rfl⟩ := found'
    by_contra several
    -- Of the fields numbered 0 and 1 at least one is not the one drawn.
    obtain ⟨other, below, different⟩ :
        ∃ other, other < p.fieldCount.val.toNat ∧ other ≠ d.updateField := by
      by_cases first : d.updateField = 0
      · exact ⟨1, by omega, by omega⟩
      · exact ⟨0, by omega, by omega⟩
    have named : fieldName other ∈ old.map Prod.fst := by
      rw [loaded, fieldName_mem_loadedNames, made.fieldCount]
      exact below
    have apart : fieldName other ≠ nextFieldName d.updateField :=
      fun same => different ((fieldName_inj _ _).mp same)
    have lost := kept (fieldName other) named apart
    have unwritten : (updateValues wl d).lookup (fieldName other) = none := by
      rw [single, PartialMap.lookup_eq_none_iff_not_mem]
      simpa [buildUpdate] using apart
    rw [unwritten] at lost
    exact (PartialMap.lookup_eq_none_iff_not_mem old _).mp lost.symm named
  · intro one
    refine ⟨s', replies, _, ran, found, ?_⟩
    intro name named apart
    rw [loaded] at named
    obtain ⟨i, below, rfl⟩ := List.mem_map.mp named
    rw [List.mem_range, made.fieldCount] at below
    have same : i = d.updateField := by omega
    exact absurd (congrArg fieldName same) apart

/-- Every record that can be stored is the record of a store that a run reaches. -/
theorem reachable_record (table key : Bytes) (old : List KVPair) (storable : Storable old) :
    ∃ s replies, Machine.run perform empty [.insert table key old] = some (s, replies) ∧
      s.db[key]? = some (encodeRecord old) ∧
      deSerializeValues (encodeRecord old) [] = .ok (old, (encodeRecord old).length) := by
  obtain ⟨s, replies, ran, holds, _⟩ :=
    run_holds_lastWritten [.insert table key old] (by simpa [Call.values] using storable)
  have last : lastWritten [.insert table key old] key = some old := if_pos rfl
  exact ⟨s, replies, ran, (holds.of_some last).2, deSerializeValues_encodeRecord old [] storable⟩

/-- The update contract at every store that a run reaches. An update keeps the
contract exactly when its list covers the stored record (and can be counted).
Where all updates of the run covered, the store holds the documented records. A
transaction that writes one field keeps the others exactly when there are none. -/
theorem update_contract_iff_covers (calls : List Call) (s : RocksDBCloud) (replies : List Reply)
    (ran : Machine.run perform empty calls = some (s, replies)) :
    (∀ table key value old offset, s.db[key]? = some value →
      deSerializeValues value [] = .ok (old, offset) → (old.map Prod.fst).Nodup →
      ∀ values : List KVPair, (values.map Prod.fst).Nodup → encodedLength values < 2 ^ 64 →
        (UpdateContract s table key old values ↔
          values.length < 2 ^ 32 ∧ Covers values old)) ∧
    ((∀ c ∈ calls, Storable c.values ∧ (c.values.map Prod.fst).Nodup) → CoveringUpdates calls →
      ∀ table key, ∃ result, s.readAll table key = some (.kOK, result) ∧
        ∀ name, result.lookup name = (documented calls key).bind (· name)) ∧
    (∀ p wl, init p = .ok wl → 1 ≤ p.fieldCount.val → p.writeAllFields = false →
      ∀ op key value old offset d, op = .UPDATE ∨ op = .READMODIFYWRITE →
        s.db[key]? = some value → deSerializeValues value [] = .ok (old, offset) →
        old.map Prod.fst = wl.loadedNames → wl.fieldChooser.canDraw d.updateField →
        encodedLength (updateValues wl d) < 2 ^ 64 →
          (KeepsOtherFields wl s op key d old ↔ p.fieldCount.val = 1)) := by
  refine ⟨?_, ?_, ?_⟩
  · intro table key value old offset _ _ _ values _ fits
    constructor
    · intro contract
      have count := updateContract_count s table key old values contract
      exact ⟨count, (updateContract_iff s table key old values ⟨count, fits⟩).mp contract⟩
    · intro ⟨count, covers⟩
      exact (updateContract_iff s table key old values ⟨count, fits⟩).mpr covers
  · intro writable covering
    obtain ⟨s', replies', ran', reads⟩ := covering_run_documented calls writable covering
    rw [ran, Option.some.injEq, Prod.mk.injEq] at ran'
    exact ran'.1 ▸ reads
  · intro p wl accepted positive partly op key value old offset d updating stored decoded
      loaded drawn fits
    have made := init_initialized p wl accepted
    have storable : Storable (updateValues wl d) := by
      refine ⟨?_, fits⟩
      rw [updateValues, if_neg (by simp [made.writeAllFields, partly])]
      exact (by decide : 1 < 2 ^ 32)
    exact keepsOtherFields_iff p wl made positive partly s op key value d old offset updating
      stored decoded loaded drawn storable

/-- The three parts at a record of two fields: an update of one of them, the
record inserted, and the client's one-field write. -/
theorem update_contract_iff_covers_twoFields :
    ∃ s replies, Machine.run perform empty [.insert [] [107] twoFields] = some (s, replies) ∧
      (UpdateContract s [] [107] twoFields [(fieldName 0, [99])] ↔
        1 < 2 ^ 32 ∧ Covers [(fieldName 0, [99])] twoFields) ∧
      (∀ table key, ∃ result, s.readAll table key = some (.kOK, result) ∧
        ∀ name, result.lookup name =
          (documented [.insert [] [107] twoFields] key).bind (· name)) ∧
      ∃ wl, KeepsOtherFields wl s .UPDATE [107] ⟨0, 1, fun _ => ⟨1, 99⟩, 0⟩ twoFields ↔
        (2 : Int) = 1 := by
  obtain ⟨s, replies, ran, stored, decoded⟩ :=
    reachable_record [] [107] twoFields twoFields_storable
  obtain ⟨contract, documents, transactions⟩ := update_contract_iff_covers _ s replies ran
  let p : Config :=
    { fieldCount := 2, recordCount := 3,
      operationCount := 0 }
  obtain ⟨wl, accepted⟩ : ∃ wl, init p = .ok wl := ⟨_, rfl⟩
  have made := init_initialized p wl accepted
  refine ⟨s, replies, ran, ?_, ?_, ⟨wl, ?_⟩⟩
  · exact contract [] [107] _ _ _ stored decoded (by decide) [(fieldName 0, [99])] (by decide)
      (by decide)
  · refine documents ?_ ?_
    · intro c member
      rw [List.mem_singleton.mp member]
      exact ⟨twoFields_storable, by decide⟩
    · intro before table key values after split
      exact absurd split (by cases before <;> simp)
  · refine transactions p wl accepted (by decide) rfl .UPDATE [107] _ _ _
      ⟨0, 1, fun _ => ⟨1, 99⟩, 0⟩ (.inl rfl) stored decoded ?_ ?_ ?_
    · simp only [loadedNames, made.fieldCount]
      rfl
    · rw [made.fieldChooser]
      decide
    · rw [updateValues, if_neg (by simp [made.writeAllFields, p])]
      decide

/-- An update of one field takes the other field of the record away. -/
theorem update_drops_fields :
    ¬ ∀ calls s replies, Machine.run perform empty calls = some (s, replies) →
      ∀ table key value old offset, s.db[key]? = some value →
        deSerializeValues value [] = .ok (old, offset) → (old.map Prod.fst).Nodup →
        ∀ values : List KVPair, (values.map Prod.fst).Nodup →
          UpdateContract s table key old values := by
  intro contract
  obtain ⟨s, replies, ran, stored, decoded⟩ :=
    reachable_record [] [107] twoFields twoFields_storable
  have kept := contract _ s replies ran [] [107] _ _ _ stored decoded (by decide)
    [(fieldName 0, [99])] (by decide)
  have covers := (updateContract_iff s [] [107] twoFields _ ⟨by decide, by decide⟩).mp kept
  have named := covers (fieldName 1) (by simp [twoFields])
  simp [fieldName_inj] at named

end YcsbCloud.Guarantees.CloudDriver
