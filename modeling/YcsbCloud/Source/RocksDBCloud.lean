import YcsbCloud.Source.Client
import YcsbCloud.Source.RecordCodec

/-!
# The `RocksDBCloud` driver

`rocksdb::DBCloud` is a finite map from key octets to value octets that iterates
in bytewise order; its calls succeed. The driver ignores the table and the
`fields` argument. A call has no result when the serializer never returns or
when the decoder leaves the stored string.
-/
namespace YcsbCloud.Source
open Library RecordCodec

/-- The database behind `db_`. -/
abbrev Store := Std.ExtTreeMap Bytes Bytes compare

structure RocksDBCloud where
  db : Store
  noResult : Nat

namespace RocksDBCloud

def empty : RocksDBCloud := ⟨∅, 0⟩

/-- `Read` appends to `result`; a miss is counted and reported as success. -/
def read (s : RocksDBCloud) (_table key : Bytes) (_fields : Option (List Bytes))
    (result : List KVPair) : Option (RocksDBCloud × Status × List KVPair) :=
  match s.db[key]? with
  | some value =>
    match deSerializeValues value result with
    | .ok (pairs, _) => some (s, .kOK, pairs)
    | .error _ => none
  | none => some ({ s with noResult := (s.noResult + 1) % 2 ^ 32 }, .kOK, result)

/-- `Seek(key)`: the entries from the first key that is not below. -/
def seek (s : RocksDBCloud) (key : Bytes) : List (Bytes × Bytes) :=
  s.db.toList.dropWhile fun entry => compare entry.1 key == .lt

/-- The scan's loop over the iterator, with its locals `k` and `val`. -/
def scanLoop (len : Int) : Int → Bytes → Bytes → List (Bytes × Bytes) → Bytes × Bytes
  | _, k, val, [] => (k, val)
  | i, k, val, entry :: rest =>
    if i < len then scanLoop len (i + 1) entry.1 entry.2 rest else (k, val)

/-- `Scan` visits the records and leaves `result` as it got it. -/
def scan (s : RocksDBCloud) (_table key : Bytes) (len : Int) (_fields : Option (List Bytes))
    (result : List (List KVPair)) : Option (RocksDBCloud × Status × List (List KVPair)) :=
  let (_k, _val) := scanLoop len 0 [] [] (s.seek key)
  some (s, .kOK, result)

def insert (s : RocksDBCloud) (_table key : Bytes) (values : List KVPair) :
    Option (RocksDBCloud × Status) :=
  match serializeValues values with
  | none => none
  | some value => some ({ s with db := s.db.insert key value }, .kOK)

def update (s : RocksDBCloud) (table key : Bytes) (values : List KVPair) :
    Option (RocksDBCloud × Status) := s.insert table key values

def delete (s : RocksDBCloud) (_table key : Bytes) : Option (RocksDBCloud × Status) :=
  some ({ s with db := s.db.erase key }, .kOK)

/-- The driver behind the interface, each query into an empty result. -/
def perform : Client.Driver RocksDBCloud := fun s call =>
  match call with
  | .read table key fields =>
    (s.read table key fields []).map fun r => (r.1, ⟨r.2.1, [r.2.2]⟩)
  | .scan table key len fields =>
    (s.scan table key len fields []).map fun r => (r.1, ⟨r.2.1, r.2.2⟩)
  | .update table key values => (s.update table key values).map fun r => (r.1, ⟨r.2, []⟩)
  | .insert table key values => (s.insert table key values).map fun r => (r.1, ⟨r.2, []⟩)
  | .delete table key => (s.delete table key).map fun r => (r.1, ⟨r.2, []⟩)

/-- The return code of a read of all fields into an empty vector, and the vector. -/
def readAll (s : RocksDBCloud) (table key : Bytes) : Option (Status × List KVPair) :=
  (s.read table key none []).map fun r => r.2

/-- The database holds exactly these records: absent where there is none, and
the encoding of a storable list where there is one. -/
def Holds (s : RocksDBCloud) (records : Bytes → Option (List KVPair)) : Prop :=
  ∀ key, match records key with
    | none => s.db[key]? = none
    | some kvs => Storable kvs ∧ s.db[key]? = some (encodeRecord kvs)

theorem Holds.of_none {s : RocksDBCloud} {records : Bytes → Option (List KVPair)} {key : Bytes}
    (holds : s.Holds records) (absent : records key = none) : s.db[key]? = none := by
  have here := holds key
  rw [absent] at here
  exact here

theorem Holds.of_some {s : RocksDBCloud} {records : Bytes → Option (List KVPair)} {key : Bytes}
    {kvs : List KVPair} (holds : s.Holds records) (present : records key = some kvs) :
    Storable kvs ∧ s.db[key]? = some (encodeRecord kvs) := by
  have here := holds key
  rw [present] at here
  exact here

theorem empty_holds : empty.Holds fun _ => none := by
  intro key
  exact Std.ExtTreeMap.getElem?_empty

theorem getElem?_insert (db : Store) (key queried value : Bytes) :
    (db.insert key value)[queried]? = if key = queried then some value else db[queried]? := by
  rw [Std.ExtTreeMap.getElem?_insert]
  simp only [Std.LawfulEqCmp.compare_eq_iff_eq]

theorem getElem?_erase (db : Store) (key queried : Bytes) :
    (db.erase key)[queried]? = if key = queried then none else db[queried]? := by
  rw [Std.ExtTreeMap.getElem?_erase]
  simp only [Std.LawfulEqCmp.compare_eq_iff_eq]

theorem insert_storable (s : RocksDBCloud) (table key : Bytes) (values : List KVPair)
    (storable : Storable values) :
    s.insert table key values =
      some ({ s with db := s.db.insert key (encodeRecord values) }, .kOK) := by
  simp only [insert, serializeValues_eq values storable.count]

theorem perform_insert (s : RocksDBCloud) (table key : Bytes) (values : List KVPair)
    (storable : Storable values) :
    perform s (.insert table key values) =
      some ({ s with db := s.db.insert key (encodeRecord values) }, ⟨.kOK, []⟩) := by
  simp only [perform, insert_storable s table key values storable, Option.map_some]

/-- An update is an insert of the given list. -/
theorem perform_update (s : RocksDBCloud) (table key : Bytes) (values : List KVPair)
    (storable : Storable values) :
    perform s (.update table key values) =
      some ({ s with db := s.db.insert key (encodeRecord values) }, ⟨.kOK, []⟩) :=
  perform_insert s table key values storable

/-- A write of a storable list puts that list in place of the key's record. -/
theorem Holds.insert {s : RocksDBCloud} {records : Bytes → Option (List KVPair)}
    (holds : s.Holds records) (key : Bytes) (values : List KVPair) (storable : Storable values) :
    Holds { s with db := s.db.insert key (encodeRecord values) }
      (Function.update records key (some values)) := by
  intro queried
  by_cases same : key = queried
  · subst queried
    rw [Function.update_self]
    exact ⟨storable, by rw [getElem?_insert, if_pos rfl]⟩
  · rw [Function.update_of_ne (Ne.symm same), getElem?_insert, if_neg same]
    exact holds queried

theorem Holds.erase {s : RocksDBCloud} {records : Bytes → Option (List KVPair)}
    (holds : s.Holds records) (key : Bytes) :
    Holds { s with db := s.db.erase key } (Function.update records key none) := by
  intro queried
  by_cases same : key = queried
  · subst queried
    rw [Function.update_self, getElem?_erase, if_pos rfl]
  · rw [Function.update_of_ne (Ne.symm same), getElem?_erase, if_neg same]
    exact holds queried

/-- A read returns the record, or nothing, and changes no record. -/
theorem Holds.read {s : RocksDBCloud} {records : Bytes → Option (List KVPair)}
    (holds : s.Holds records) (table key : Bytes) (fields : Option (List Bytes))
    (result : List KVPair) :
    ∃ s', s.read table key fields result = some (s', .kOK, result ++ (records key).getD []) ∧
      s'.db = s.db := by
  cases found : records key with
  | none =>
    refine ⟨{ s with noResult := (s.noResult + 1) % 2 ^ 32 }, ?_, rfl⟩
    simp only [RocksDBCloud.read, holds.of_none found, Option.getD_none, List.append_nil]
  | some kvs =>
    obtain ⟨storable, stored⟩ := holds.of_some found
    refine ⟨s, ?_, rfl⟩
    simp only [RocksDBCloud.read, stored, deSerializeValues_encodeRecord kvs result storable,
      Option.getD_some]

theorem Holds.readAll {s : RocksDBCloud} {records : Bytes → Option (List KVPair)}
    (holds : s.Holds records) (table key : Bytes) :
    s.readAll table key = some (.kOK, (records key).getD []) := by
  obtain ⟨s', result, _⟩ := holds.read table key none []
  simp only [RocksDBCloud.readAll, result, Option.map_some, List.nil_append]

/-- What a call does to the record of a key. -/
def recordAfter (key : Bytes) (before : Option (List KVPair)) : Call → Option (List KVPair)
  | .insert _ written values | .update _ written values =>
    if written = key then some values else before
  | .delete _ deleted => if deleted = key then none else before
  | .read .. | .scan .. => before

/-- The pairs of the most recent write of a key that no delete of it follows. -/
def lastWritten (calls : List Call) (key : Bytes) : Option (List KVPair) :=
  calls.foldl (recordAfter key) none

/-- One call on a map from keys to records. -/
def recordStep (records : Bytes → Option (List KVPair)) (call : Call) (reply : Reply)
    (after : Bytes → Option (List KVPair)) : Prop :=
  after = (fun key => recordAfter key (records key) call) ∧
    reply = ⟨.kOK, match call with
      | .read _ key _ => [(records key).getD []]
      | _ => []⟩

theorem recordAfter_write (records : Bytes → Option (List KVPair)) (key : Bytes)
    (values : Option (List KVPair)) :
    Function.update records key values =
      fun queried => if key = queried then values else records queried := by
  funext queried
  by_cases same : queried = key
  · subst queried
    simp
  · rw [Function.update_of_ne same, if_neg (Ne.symm same)]

/-- Every call on a driver that holds some records returns, and does what the
record store does. -/
theorem perform_simulates (s : RocksDBCloud) (records : Bytes → Option (List KVPair)) (call : Call)
    (holds : s.Holds records) (storable : Storable call.values) :
    ∃ s' reply after, perform s call = some (s', reply) ∧ recordStep records call reply after ∧
      s'.Holds after := by
  cases call with
  | read table key fields =>
    obtain ⟨s', result, sameDb⟩ := holds.read table key fields []
    refine ⟨s', _, _, ?_, ⟨rfl, rfl⟩, ?_⟩
    · simp only [perform, result, Option.map_some, List.nil_append]
    · intro queried
      rw [sameDb]
      exact holds queried
  | scan table key len fields => exact ⟨s, _, _, rfl, ⟨rfl, rfl⟩, holds⟩
  | update table key values =>
    refine ⟨_, _, _, perform_update s table key values storable, ⟨rfl, rfl⟩, ?_⟩
    have written := holds.insert key values storable
    rwa [recordAfter_write] at written
  | insert table key values =>
    refine ⟨_, _, _, perform_insert s table key values storable, ⟨rfl, rfl⟩, ?_⟩
    have written := holds.insert key values storable
    rwa [recordAfter_write] at written
  | delete table key =>
    refine ⟨_, _, _, rfl, ⟨rfl, rfl⟩, ?_⟩
    have erased := holds.erase key
    rwa [recordAfter_write] at erased

/-- A run of the record store ends with the last record written to each key. -/
theorem specRun_lastWritten (records final : Bytes → Option (List KVPair)) (calls : List Call)
    (replies : List Reply) (ran : Machine.SpecRun recordStep records calls replies final) :
    final = fun key => calls.foldl (recordAfter key) (records key) := by
  induction ran with
  | nil records => rfl
  | cons moved ran ih =>
    rw [ih, moved.1]
    rfl

/-- The reply to a call of a run, from the calls before it. -/
def replyAfter (before : List Call) (call : Call) : Reply :=
  ⟨.kOK, match call with
    | .read _ key _ => [(lastWritten before key).getD []]
    | _ => []⟩

theorem specRun_replies (before calls : List Call) (final : Bytes → Option (List KVPair))
    (replies : List Reply)
    (ran : Machine.SpecRun recordStep (lastWritten before) calls replies final)
    (i : Nat) (call : Call) (here : calls[i]? = some call) :
    replies[i]? = some (replyAfter (before ++ calls.take i) call) := by
  induction calls generalizing before replies i with
  | nil => simp at here
  | cons head rest ih =>
    cases ran with
    | cons moved ran =>
      obtain ⟨rfl, rfl⟩ := moved
      cases i with
      | zero =>
        cases here
        simp only [List.take_zero, List.append_nil, List.getElem?_cons_zero]
        cases call <;> rfl
      | succ i =>
        have next : (fun key => recordAfter key (lastWritten before key) head) =
            lastWritten (before ++ [head]) := by
          funext key
          simp only [lastWritten, List.foldl_append, List.foldl_cons, List.foldl_nil]
        rw [next] at ran
        have tail := ih (before ++ [head]) _ ran i (by simpa using here)
        simpa only [List.getElem?_cons_succ, List.take_succ_cons, List.append_assoc,
          List.singleton_append] using tail

/-- Every run of storable calls returns, replies from what was last written, and
leaves the last record written to each key. -/
theorem run_holds_lastWritten (calls : List Call) (storable : ∀ c ∈ calls, Storable c.values) :
    ∃ s replies, Machine.run perform empty calls = some (s, replies) ∧
      s.Holds (lastWritten calls) ∧
      ∀ (i : Nat) (call : Call), calls[i]? = some call →
        replies[i]? = some (replyAfter (calls.take i) call) := by
  obtain ⟨s, replies, final, ran, specRan, holds⟩ :=
    Machine.run_simulates perform recordStep (fun c => Storable c.values) Holds
      (fun s records call holds storable => perform_simulates s records call holds storable)
      empty (fun _ => none) calls empty_holds storable
  have last : final = lastWritten calls := specRun_lastWritten _ _ _ _ specRan
  exact ⟨s, replies, ran, last ▸ holds, fun i call here =>
    specRun_replies [] calls final replies specRan i call here⟩

end RocksDBCloud

end YcsbCloud.Source
