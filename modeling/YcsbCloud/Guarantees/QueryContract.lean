import YcsbCloud.Source.RocksDBCloud

/-!
# `RocksDBCloud` and the queries that `DB` documents

A read is to say when the record is missing and to return the fields asked for; a
scan is to return the records it visits. The driver reports every read as a
success, returns all fields, and leaves the result of a scan empty, so that it
meets the interface only where nothing of this shows.
-/
namespace YcsbCloud.Guarantees.QueryContract
open Source Source.RecordCodec Source.RocksDBCloud

/-- The pairs of a record whose names are asked for. -/
def projected (fields : Option (List Bytes)) (kvs : List KVPair) : List KVPair :=
  match fields with
  | none => kvs
  | some names => kvs.filter fun kv => kv.1 ∈ names

/-- A read into an empty vector fails exactly on a missing record, and otherwise
returns the fields asked for. -/
def ReadContract (s : RocksDBCloud) (records : Bytes → Option (List KVPair)) (table key : Bytes)
    (fields : Option (List Bytes)) : Prop :=
  ∃ s' status result, s.read table key fields [] = some (s', status, result) ∧
    (status.code ≠ 0 ↔ records key = none) ∧
    (status.code = 0 → ∃ kvs, records key = some kvs ∧ result = projected fields kvs)

/-- The first `len` keys of the database from `key` on, in key order. -/
def firstKeys (s : RocksDBCloud) (key : Bytes) (len : Int) : List Bytes :=
  (s.db.keys.filter fun other => compare key other != .gt).take len.toNat

/-- A scan into an empty vector returns the fields asked for of each of these
keys, the ones that a read of the key returns. -/
def ScanContract (s : RocksDBCloud) (records : Bytes → Option (List KVPair)) (table key : Bytes)
    (len : Int) (fields : Option (List Bytes)) : Prop :=
  ∃ (s' : RocksDBCloud) (result : List (List KVPair)),
    s.scan table key len fields [] = some (s', .kOK, result) ∧
    result = (firstKeys s key len).map (fun other => projected fields ((records other).getD [])) ∧
    ∀ (i : Nat) (other : Bytes), (firstKeys s key len)[i]? = some other →
      ∃ (s'' : RocksDBCloud) (pairs : List KVPair),
        s.read table other fields [] = some (s'', .kOK, pairs) ∧ result[i]? = some pairs

/-- The fields asked for are all those of the record. -/
def AsksForAll (fields : Option (List Bytes)) (kvs : List KVPair) : Prop :=
  ∀ names, fields = some names → ∀ kv ∈ kvs, kv.1 ∈ names

theorem projected_eq_self_iff (fields : Option (List Bytes)) (kvs : List KVPair) :
    projected fields kvs = kvs ↔ AsksForAll fields kvs := by
  cases fields with
  | none => simp [projected, AsksForAll]
  | some names => simp [projected, AsksForAll, List.filter_eq_self]

variable {s : RocksDBCloud} {records : Bytes → Option (List KVPair)}

theorem mem_keys_iff (holds : s.Holds records) (key : Bytes) :
    key ∈ s.db.keys ↔ records key ≠ none := by
  rw [Std.ExtTreeMap.mem_keys, Std.ExtTreeMap.mem_iff_isSome_getElem?]
  cases found : records key with
  | none => simp [holds.of_none found]
  | some kvs => simp [(holds.of_some found).2]

theorem readContract_iff (holds : s.Holds records) (table key : Bytes)
    (fields : Option (List Bytes)) :
    ReadContract s records table key fields ↔
      ∃ kvs, records key = some kvs ∧ AsksForAll fields kvs := by
  obtain ⟨after, ran, _⟩ := holds.read table key fields []
  rw [List.nil_append] at ran
  constructor
  · intro ⟨s', status, result, returned, _, found⟩
    rw [ran, Option.some.injEq, Prod.mk.injEq, Prod.mk.injEq] at returned
    obtain ⟨_, rfl, rfl⟩ := returned
    obtain ⟨kvs, present, all⟩ := found rfl
    rw [present, Option.getD_some] at all
    exact ⟨kvs, present, (projected_eq_self_iff fields kvs).mp all.symm⟩
  · intro ⟨kvs, present, all⟩
    refine ⟨after, _, _, ran, ?_, fun _ => ⟨kvs, present, ?_⟩⟩
    · rw [present]
      exact ⟨fun failed => absurd rfl failed, fun missing => by cases missing⟩
    · rw [present, Option.getD_some, (projected_eq_self_iff fields kvs).mpr all]

theorem firstKeys_eq_nil_iff (holds : s.Holds records) (key : Bytes) (len : Int)
    (nonneg : 0 ≤ len) :
    firstKeys s key len = [] ↔
      len = 0 ∨ ∀ other, records other ≠ none → compare key other = .gt := by
  have zero : len.toNat = 0 ↔ len = 0 := by omega
  rw [firstKeys, List.take_eq_nil_iff, zero, List.filter_eq_nil_iff]
  refine or_congr_right (forall_congr' fun other => ?_)
  rw [mem_keys_iff holds]
  simp

theorem scanContract_iff (holds : s.Holds records) (table key : Bytes) (len : Int)
    (nonneg : 0 ≤ len) (fields : Option (List Bytes)) :
    ScanContract s records table key len fields ↔
      len = 0 ∨ ∀ other, records other ≠ none → compare key other = .gt := by
  rw [← firstKeys_eq_nil_iff holds key len nonneg]
  constructor
  · intro ⟨s', result, scanned, listed, _⟩
    rw [scan, Option.some.injEq, Prod.mk.injEq, Prod.mk.injEq] at scanned
    rw [← scanned.2.2] at listed
    exact List.map_eq_nil_iff.mp listed.symm
  · intro none_visited
    refine ⟨s, [], rfl, by rw [none_visited, List.map_nil], ?_⟩
    rw [none_visited]
    intro i other here
    cases here

/-- Over every content of the database, a read meets the interface exactly on a
stored key with all its fields asked for; a scan does exactly when it visits
nothing; and both do exactly on such a key with a length of zero. -/
theorem query_contract_iff (s : RocksDBCloud) (records : Bytes → Option (List KVPair))
    (holds : s.Holds records) (table key : Bytes) (fields : Option (List Bytes)) (len : Int)
    (nonneg : 0 ≤ len) :
    (ReadContract s records table key fields ↔
      ∃ kvs, records key = some kvs ∧ AsksForAll fields kvs) ∧
    (ScanContract s records table key len fields ↔
      len = 0 ∨ ∀ other, records other ≠ none → compare key other = .gt) ∧
    (ReadContract s records table key fields ∧ ScanContract s records table key len fields ↔
      (∃ kvs, records key = some kvs ∧ AsksForAll fields kvs) ∧ len = 0) := by
  have reads := readContract_iff holds table key fields
  have scans := scanContract_iff holds table key len nonneg fields
  refine ⟨reads, scans, ?_⟩
  rw [reads, scans]
  refine and_congr_right fun ⟨kvs, present, _⟩ => or_iff_left ?_
  -- The key itself is one that a scan from it visits.
  intro below
  have itself := below key (by rw [present]; exact Option.some_ne_none kvs)
  have same : compare key key = .eq := Std.ReflCmp.compare_self
  rw [same] at itself
  cases itself

/-- Two inserts of two fields each. -/
theorem holds_two : ∃ s, Holds s
    (Function.update (Function.update (fun _ => none) [107] (some [([97], [1]), ([98], [2, 0])]))
      [108] (some [([97], []), ([99], [3])])) :=
  ⟨_, (empty_holds.insert [107] [([97], [1]), ([98], [2, 0])] ⟨by decide, by decide⟩).insert [108]
    [([97], []), ([99], [3])] ⟨by decide, by decide⟩⟩

/-- A read of the first record with its fields asked for in another order and one more
besides, and a scan of no records. -/
theorem query_contract_iff_two : ∃ s records, Holds s records ∧
    records [107] = some [([97], [1]), ([98], [2, 0])] ∧
    records [108] = some [([97], []), ([99], [3])] ∧
    ReadContract s records [116] [107] (some [[98], [120], [97]]) ∧
    ScanContract s records [116] [107] 0 (some [[98], [120], [97]]) := by
  obtain ⟨s, holds⟩ := holds_two
  obtain ⟨_, _, both⟩ :=
    query_contract_iff s _ holds [116] [107] (some [[98], [120], [97]]) 0 (by decide)
  have stored := both.mpr ⟨⟨[([97], [1]), ([98], [2, 0])], by decide, ?_⟩, rfl⟩
  · exact ⟨s, _, holds, by decide, by decide, stored⟩
  · intro names asked
    cases asked
    decide

/-- A read of a missing record is reported as a success. -/
theorem missing_record_read :
    ¬ ∀ (s : RocksDBCloud) (records : Bytes → Option (List KVPair)), s.Holds records →
      ∀ (table key : Bytes) (fields : Option (List Bytes)) (len : Int), 0 ≤ len →
        ReadContract s records table key fields ∧ ScanContract s records table key len fields := by
  intro claimed
  have contract := (claimed empty (fun _ => none) empty_holds [116] [107] none 0 (by decide)).1
  obtain ⟨kvs, present, _⟩ := (readContract_iff empty_holds [116] [107] none).mp contract
  cases present

end YcsbCloud.Guarantees.QueryContract
