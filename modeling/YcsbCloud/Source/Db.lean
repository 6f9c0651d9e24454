import YcsbCloud.Source.Strings

/-!
# The database interface of `core/db.h`

A driver answers calls. The client always passes a result vector that is empty,
so a reply carries the vectors the call filled; drivers that append to a vector
take it as an argument of their own functions.
-/
namespace YcsbCloud.Source

/-- `DB::KVPair`: a field name and its value. -/
abbrev KVPair := Bytes × Bytes

inductive Status where
  | kOK | kErrorNoData | kErrorConflict
  deriving DecidableEq, Repr

/-- The constants of `DB`; a client asserts `status >= 0`. -/
def Status.code : Status → Int
  | .kOK => 0
  | .kErrorNoData => 1
  | .kErrorConflict => 2

/-- One call through the interface; a `fields` of `none` is the NULL pointer. -/
inductive Call where
  | read (table key : Bytes) (fields : Option (List Bytes))
  | scan (table key : Bytes) (recordCount : Int) (fields : Option (List Bytes))
  | update (table key : Bytes) (values : List KVPair)
  | insert (table key : Bytes) (values : List KVPair)
  | delete (table key : Bytes)
  deriving DecidableEq, Repr

/-- The return code, and the records put into the result: one for a read, one
per visited key for a scan. -/
structure Reply where
  status : Status
  result : List (List KVPair)
  deriving DecidableEq, Repr

namespace Call

def table : Call → Bytes
  | .read table _ _ | .scan table _ _ _ | .update table _ _ | .insert table _ _
  | .delete table _ => table

def key : Call → Bytes
  | .read _ key _ | .scan _ key _ _ | .update _ key _ | .insert _ key _ | .delete _ key => key

/-- The field/value pairs the call hands over for writing. -/
def values : Call → List KVPair
  | .update _ _ values | .insert _ _ values => values
  | .read .. | .scan .. | .delete .. => []

/-- The field names a query asks for; none for a NULL list. -/
def fields : Call → List Bytes
  | .read _ _ fields | .scan _ _ _ fields => fields.getD []
  | .update .. | .insert .. | .delete .. => []

/-- The key of a query or update: what `NextTransactionKey` supplies. -/
def requestedKey : Call → Option Bytes
  | .read _ key _ | .scan _ key _ _ | .update _ key _ => some key
  | .insert .. | .delete .. => none

def insertedKey : Call → Option Bytes
  | .insert _ key _ => some key
  | .read .. | .scan .. | .update .. | .delete .. => none

end Call

/-- The keys that a log of calls queries or updates, and those it inserts. -/
def requestedKeys (calls : List Call) : List Bytes := calls.filterMap Call.requestedKey
def insertedKeys (calls : List Call) : List Bytes := calls.filterMap Call.insertedKey

end YcsbCloud.Source
