import Mathlib.Data.Option.Basic
import YcsbCloud.Source.Client
import YcsbCloud.Source.Generators
import YcsbCloud.Source.StringHashtable

/-!
# The `HashtableDB` driver

A record is a table of fields behind a pointer in the table of keys, and a value
is a string behind a pointer in a table of fields. Pointers are references into
two heaps, so that sharing and release are visible: an operation has no result
when it follows or releases a reference that is not live. The four virtual
functions are taken at what their names say.
-/
namespace YcsbCloud.Source
open Library

abbrev TableRef := Nat
abbrev StringRef := Nat

/-- `key_table_`, the live field tables and the live strings, with the next
reference each allocation returns. -/
structure HashtableDB (H : Type → Type) where
  keyTable : H TableRef
  tables : TableRef → Option (H StringRef)
  nextTable : TableRef
  strings : StringRef → Option CStr
  nextString : StringRef

namespace HashtableDB

variable {H : Type → Type} [StringHashtable H]

def empty : HashtableDB H := ⟨StringHashtable.new, fun _ => none, 0, fun _ => none, 0⟩

/-- `string key_index(table + key)`, as `c_str` shows it to the key table. -/
def keyIndex (table key : Bytes) : CStr := cStr (table ++ key)

def newFieldHashtable (s : HashtableDB H) : TableRef × HashtableDB H :=
  (s.nextTable, { s with
    tables := Function.update s.tables s.nextTable (some StringHashtable.new)
    nextTable := s.nextTable + 1 })

def copyString (s : HashtableDB H) (str : Bytes) : StringRef × HashtableDB H :=
  (s.nextString, { s with
    strings := Function.update s.strings s.nextString (some (cStr str))
    nextString := s.nextString + 1 })

def deleteString (s : HashtableDB H) (str : StringRef) : Option (HashtableDB H) :=
  match s.strings str with
  | none => none
  | some _ => some { s with strings := Function.update s.strings str none }

omit [StringHashtable H] in
theorem deleteString_live {s : HashtableDB H} {str : StringRef} {value : CStr}
    (held : s.strings str = some value) :
    s.deleteString str = some { s with strings := Function.update s.strings str none } := by
  rw [deleteString, held]

def deleteStrings (s : HashtableDB H) : List StringRef → Option (HashtableDB H)
  | [] => some s
  | str :: rest =>
    match s.deleteString str with
    | none => none
    | some s => deleteStrings s rest

/-- Releases the strings stored in the table, then the table. -/
def deleteFieldHashtable (s : HashtableDB H) (table : TableRef) : Option (HashtableDB H) :=
  match s.tables table with
  | none => none
  | some fields =>
    match s.deleteStrings ((StringHashtable.entries fields none allEntries).map Prod.snd) with
    | none => none
    | some s => some { s with tables := Function.update s.tables table none }

/-- A field table after a call on it through its pointer. -/
def setTable (s : HashtableDB H) (table : TableRef) (fields : H StringRef) : HashtableDB H :=
  { s with tables := Function.update s.tables table (some fields) }

/-- The loop over `Entries()`, making a pair of strings of each entry. -/
def projectEntries (s : HashtableDB H) : List (CStr × StringRef) → Option (List KVPair)
  | [] => some []
  | (name, str) :: rest =>
    match s.strings str, projectEntries s rest with
    | some value, some pairs => some ((name.val, value.val) :: pairs)
    | _, _ => none

/-- The loop over `*fields`, skipping the fields that are not there. -/
def projectFields (s : HashtableDB H) (table : H StringRef) : List Bytes → Option (List KVPair)
  | [] => some []
  | field :: rest =>
    match StringHashtable.get table (cStr field) with
    | none => projectFields s table rest
    | some str =>
      match s.strings str, projectFields s table rest with
      | some value, some pairs => some ((field, value.val) :: pairs)
      | _, _ => none

/-- The projection of one record, the same in `Read` and in `Scan`. -/
def project (s : HashtableDB H) (table : TableRef) (fields : Option (List Bytes)) :
    Option (List KVPair) :=
  match s.tables table with
  | none => none
  | some fieldTable =>
    match fields with
    | none => s.projectEntries (StringHashtable.entries fieldTable none allEntries)
    | some fields => s.projectFields fieldTable fields

def read (s : HashtableDB H) (table key : Bytes) (fields : Option (List Bytes))
    (result : List KVPair) : Option (Status × List KVPair) :=
  match StringHashtable.get s.keyTable (keyIndex table key) with
  | none => some (.kErrorNoData, result)
  | some fieldTable => (s.project fieldTable fields).map fun pairs => (.kOK, pairs)

def scanLoop (s : HashtableDB H) (fields : Option (List Bytes)) :
    List (CStr × TableRef) → Option (List (List KVPair))
  | [] => some []
  | (_, fieldTable) :: rest =>
    match s.project fieldTable fields, scanLoop s fields rest with
    | some fieldValues, some result => some (fieldValues :: result)
    | _, _ => none

def scan (s : HashtableDB H) (table key : Bytes) (len : Int) (fields : Option (List Bytes)) :
    Option (Status × List (List KVPair)) :=
  let keyPairs := StringHashtable.entries s.keyTable (some (keyIndex table key)) (toU64 len)
  (s.scanLoop fields keyPairs).map fun result => (.kOK, result)

/-- The loop of `Update` on a record it has just created: the result of `Insert`
is not looked at. -/
def updateNew (s : HashtableDB H) (table : TableRef) : List KVPair → Option (HashtableDB H)
  | [] => some s
  | fieldPair :: rest =>
    let (value, s) := s.copyString fieldPair.2
    match s.tables table with
    | none => none
    | some fields =>
      let (_, fields) := StringHashtable.insert fields (cStr fieldPair.1) value
      updateNew (s.setTable table fields) table rest

/-- The loop of `Update` on a record that was there. -/
def updateExisting (s : HashtableDB H) (table : TableRef) : List KVPair → Option (HashtableDB H)
  | [] => some s
  | fieldPair :: rest =>
    let (value, s) := s.copyString fieldPair.2
    match s.tables table with
    | none => none
    | some fields =>
      match StringHashtable.update fields (cStr fieldPair.1) value with
      | (none, fields) =>
        let (_, fields) := StringHashtable.insert fields (cStr fieldPair.1) value
        updateExisting (s.setTable table fields) table rest
      | (some old, fields) =>
        match (s.setTable table fields).deleteString old with
        | none => none
        | some s => updateExisting s table rest

def update (s : HashtableDB H) (table key : Bytes) (values : List KVPair) :
    Option (HashtableDB H × Status) :=
  match StringHashtable.get s.keyTable (keyIndex table key) with
  | none =>
    let (fieldTable, s) := s.newFieldHashtable
    let (_, keyTable) := StringHashtable.insert s.keyTable (keyIndex table key) fieldTable
    (updateNew { s with keyTable := keyTable } fieldTable values).map fun s => (s, .kOK)
  | some fieldTable => (s.updateExisting fieldTable values).map fun s => (s, .kOK)

/-- The loop of `Insert`, which ends at the first field that is there. -/
def insertFields (s : HashtableDB H) (table : TableRef) :
    List KVPair → Option (HashtableDB H × Status)
  | [] => some (s, .kOK)
  | fieldPair :: rest =>
    let (value, s) := s.copyString fieldPair.2
    match s.tables table with
    | none => none
    | some fields =>
      let (ok, fields) := StringHashtable.insert fields (cStr fieldPair.1) value
      if !ok then
        ((s.setTable table fields).deleteString value).map fun s => (s, .kErrorConflict)
      else insertFields (s.setTable table fields) table rest

def insert (s : HashtableDB H) (table key : Bytes) (values : List KVPair) :
    Option (HashtableDB H × Status) :=
  match StringHashtable.get s.keyTable (keyIndex table key) with
  | none =>
    let (fieldTable, s) := s.newFieldHashtable
    let (_, keyTable) := StringHashtable.insert s.keyTable (keyIndex table key) fieldTable
    insertFields { s with keyTable := keyTable } fieldTable values
  | some fieldTable => s.insertFields fieldTable values

def delete (s : HashtableDB H) (table key : Bytes) : Option (HashtableDB H × Status) :=
  match StringHashtable.remove s.keyTable (keyIndex table key) with
  | (none, keyTable) => some ({ s with keyTable := keyTable }, .kErrorNoData)
  | (some fieldTable, keyTable) =>
    (deleteFieldHashtable { s with keyTable := keyTable } fieldTable).map fun s => (s, .kOK)

/-- The driver behind the interface, each query into an empty result. -/
def perform : Client.Driver (HashtableDB H) := fun s call =>
  match call with
  | .read table key fields =>
    (s.read table key fields []).map fun r => (s, ⟨r.1, [r.2]⟩)
  | .scan table key len fields => (s.scan table key len fields).map fun r => (s, ⟨r.1, r.2⟩)
  | .update table key values => (s.update table key values).map fun r => (r.1, ⟨r.2, []⟩)
  | .insert table key values => (s.insert table key values).map fun r => (r.1, ⟨r.2, []⟩)
  | .delete table key => (s.delete table key).map fun r => (r.1, ⟨r.2, []⟩)

section perform

variable {s s' : HashtableDB H} {status : Status} {table key : Bytes} {values : List KVPair}

theorem perform_update (ran : s.update table key values = some (s', status)) :
    perform s (.update table key values) = some (s', ⟨status, []⟩) := by
  simp only [perform, ran, Option.map_some]

theorem perform_insert (ran : s.insert table key values = some (s', status)) :
    perform s (.insert table key values) = some (s', ⟨status, []⟩) := by
  simp only [perform, ran, Option.map_some]

theorem perform_delete (ran : s.delete table key = some (s', status)) :
    perform s (.delete table key) = some (s', ⟨status, []⟩) := by
  simp only [perform, ran, Option.map_some]

theorem perform_read {fields : Option (List Bytes)} {pairs : List KVPair}
    (ran : s.read table key fields [] = some (status, pairs)) :
    perform s (.read table key fields) = some (s, ⟨status, [pairs]⟩) := by
  simp only [perform, ran, Option.map_some]

theorem perform_scan {len : Int} {fields : Option (List Bytes)} {result : List (List KVPair)}
    (ran : s.scan table key len fields = some (status, result)) :
    perform s (.scan table key len fields) = some (s, ⟨status, result⟩) := by
  simp only [perform, ran, Option.map_some]

end perform

end HashtableDB

end YcsbCloud.Source
