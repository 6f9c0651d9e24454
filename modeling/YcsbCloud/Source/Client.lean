import YcsbCloud.Library.Machine
import YcsbCloud.Source.CoreWorkload

/-!
# The client of `core/client.h`

A transaction is the list of calls it makes, in order: no transaction branches
on a reply, and its status is that of its last call. The key and the draws of
the workload's generators are arguments.
-/
namespace YcsbCloud.Source.Client
open Library CoreWorkload

/-- What a transaction takes from the generators besides its key. The two
`field_chooser_` draws are those of the `fields` list and of `BuildUpdate`. -/
structure TransactionDraws where
  readField : Nat
  updateField : Nat
  values : Nat → ValueDraw
  scanLength : Nat

/-- The draws that `field_chooser_` can return. -/
structure TransactionDraws.InRange (wl : CoreWorkload) (d : TransactionDraws) : Prop where
  readField : wl.fieldChooser.canDraw d.readField
  updateField : wl.fieldChooser.canDraw d.updateField

instance (wl : CoreWorkload) (d : TransactionDraws) : Decidable (d.InRange wl) :=
  decidable_of_iff (wl.fieldChooser.canDraw d.readField ∧ wl.fieldChooser.canDraw d.updateField)
    ⟨fun h => ⟨h.1, h.2⟩, fun h => ⟨h.readField, h.updateField⟩⟩

/-- `DoInsert` on the key that `NextSequenceKey` returned. -/
def doInsert (wl : CoreWorkload) (key : Bytes) (values : Nat → ValueDraw) : List Call :=
  [.insert wl.tableName key (wl.buildValues values)]

/-- The `fields` argument of the three queries: `"field"` is put in front of
what `NextFieldName` returns, which starts with it already. -/
def queryFields (wl : CoreWorkload) (d : TransactionDraws) : Option (List Bytes) :=
  if !wl.readAllFields then some [field ++ nextFieldName d.readField] else none

/-- The pairs that an update writes. -/
def updateValues (wl : CoreWorkload) (d : TransactionDraws) : List KVPair :=
  if wl.writeAllFields then wl.buildValues d.values else buildUpdate d.updateField (d.values 0)

def transactionRead (wl : CoreWorkload) (key : Bytes) (d : TransactionDraws) : List Call :=
  [.read wl.tableName key (queryFields wl d)]

def transactionReadModifyWrite (wl : CoreWorkload) (key : Bytes) (d : TransactionDraws) :
    List Call :=
  [.read wl.tableName key (queryFields wl d), .update wl.tableName key (updateValues wl d)]

/-- `int len = NextScanLength()`. -/
def transactionScan (wl : CoreWorkload) (key : Bytes) (d : TransactionDraws) : List Call :=
  [.scan wl.tableName key ((d.scanLength : Int).bmod (2 ^ 32)) (queryFields wl d)]

def transactionUpdate (wl : CoreWorkload) (key : Bytes) (d : TransactionDraws) : List Call :=
  [.update wl.tableName key (updateValues wl d)]

/-- The taken branch: the key is a value of `uniform_insert_counter`, never hashed. -/
def transactionInsert (wl : CoreWorkload) (keyNum : Nat) (d : TransactionDraws) : List Call :=
  [.insert wl.tableName (user ++ stdToString keyNum) (wl.buildValues d.values)]

/-- `DoTransaction` on an operation whose key `NextTransactionKey` supplies; an
insert, whose key it does not, has no call here. -/
def keyedTransaction (wl : CoreWorkload) (op : Operation) (key : Bytes) (d : TransactionDraws) :
    List Call :=
  match op with
  | .READ => transactionRead wl key d
  | .UPDATE => transactionUpdate wl key d
  | .SCAN => transactionScan wl key d
  | .READMODIFYWRITE => transactionReadModifyWrite wl key d
  | .INSERT => []

/-- `DoTransaction`, with the key that `NextTransactionKey` supplies or the number
that the insert counter does. -/
def doTransaction (wl : CoreWorkload) (op : Operation) (key : Bytes) (keyNum : Nat)
    (d : TransactionDraws) : List Call :=
  match op with
  | .INSERT => transactionInsert wl keyNum d
  | .READ | .UPDATE | .SCAN | .READMODIFYWRITE => keyedTransaction wl op key d

/-- A driver: what a call does to the database and what it replies. -/
abbrev Driver (σ : Type) := Machine.Step σ Call Reply

end YcsbCloud.Source.Client
