import Mathlib.Logic.Function.Basic
import YcsbCloud.Source.CoreWorkload

/-!
# What `DoTransaction` and `RecordTime` count

The statistics that a transaction of `core/client.h` leaves behind over
`RocksDBCloud`: the counters of `ycsbc.cc`, and the histograms of the driver. A
transaction is its kind and two readings of `get_now_micros`. The counters of
operations are natural numbers: the number of operations is an `int`.
-/
namespace YcsbCloud.Source.Statistics

/-- The part of `hdr_histogram` that is relied on: a value is counted if it is in the
range that the histogram tracks, and dropped otherwise. -/
structure HdrLibrary where
  Histogram : Type
  hdrInit : Histogram
  hdrRecordValue : Histogram → Int → Histogram
  totalCount : Histogram → Nat
  highestTrackable : Int
  hour_le : 3600000000 ≤ highestTrackable
  totalCount_init : totalCount hdrInit = 0
  counts : ∀ h value, 0 ≤ value ∧ value ≤ highestTrackable →
    totalCount (hdrRecordValue h value) = totalCount h + 1
  drops : ∀ h value, ¬ (0 ≤ value ∧ value ≤ highestTrackable) → hdrRecordValue h value = h

/-- The histograms of `RocksDBCloud`, and its `qps`. -/
structure RocksDBCloud (lib : HdrLibrary) where
  qps : Int64
  hdr : lib.Histogram
  hdrLast1s : lib.Histogram
  hdrPut : lib.Histogram
  hdrGet : lib.Histogram
  hdrUpdate : lib.Histogram
  hdrScan : lib.Histogram
  hdrRmw : lib.Histogram

/-- `ops_cnt` and `ops_time`, and the database of the client. -/
structure Client (lib : HdrLibrary) where
  opsCnt : Operation → Nat
  opsTime : Operation → Nat
  db : RocksDBCloud lib

variable {lib : HdrLibrary}

/-- Conversion of a `uint64_t` to `int64_t`. -/
def toI64 (x : Nat) : Int := (x : Int).bmod (2 ^ 64)

namespace RocksDBCloud

/-- `RecordTime`, but for its messages. -/
def recordTime (db : RocksDBCloud lib) (op : Int) (txXtime : Nat) : RocksDBCloud lib :=
  let db := { db with
    qps := db.qps + 1
    hdr := lib.hdrRecordValue db.hdr (toI64 txXtime)
    hdrLast1s := lib.hdrRecordValue db.hdrLast1s (toI64 txXtime) }
  if op = 1 then { db with hdrPut := lib.hdrRecordValue db.hdrPut (toI64 txXtime) }
  else if op = 2 then { db with hdrGet := lib.hdrRecordValue db.hdrGet (toI64 txXtime) }
  else if op = 3 then { db with hdrUpdate := lib.hdrRecordValue db.hdrUpdate (toI64 txXtime) }
  else if op = 4 then { db with hdrScan := lib.hdrRecordValue db.hdrScan (toI64 txXtime) }
  else if op = 5 then { db with hdrRmw := lib.hdrRecordValue db.hdrRmw (toI64 txXtime) }
  else db

/-- The histogram of a kind of operation. -/
def own (db : RocksDBCloud lib) : Operation → lib.Histogram
  | .INSERT => db.hdrPut
  | .READ => db.hdrGet
  | .UPDATE => db.hdrUpdate
  | .SCAN => db.hdrScan
  | .READMODIFYWRITE => db.hdrRmw

end RocksDBCloud

/-- The number that `DoTransaction` passes to `RecordTime` for its operation. -/
def recordCode : Operation → Int
  | .READ => 2
  | .UPDATE => 3
  | .INSERT => 1
  | .SCAN => 4
  | .READMODIFYWRITE => 5

/-- A transaction: the operation, and the clock before and after it. -/
structure Transaction where
  op : Operation
  startTime : Nat
  endTime : Nat
  deriving DecidableEq, Repr

/-- `DoTransaction`, after the calls to the database. -/
def doTransaction (c : Client lib) (t : Transaction) : Client lib :=
  let opTime := subU64 t.endTime t.startTime
  { opsCnt := Function.update c.opsCnt t.op (c.opsCnt t.op + 1)
    opsTime := Function.update c.opsTime t.op (addU64 (c.opsTime t.op) opTime)
    db := c.db.recordTime (recordCode t.op) opTime }

/-- A client before its first transaction. -/
def start (lib : HdrLibrary) (qps : Int64) : Client lib where
  opsCnt := fun _ => 0
  opsTime := fun _ => 0
  db := ⟨qps, lib.hdrInit, lib.hdrInit, lib.hdrInit, lib.hdrInit, lib.hdrInit, lib.hdrInit,
    lib.hdrInit⟩

/-- The statistics after a run of transactions. -/
def runTransactions (c : Client lib) (run : List Transaction) : Client lib :=
  run.foldl doTransaction c

theorem recordTime_hdr (db : RocksDBCloud lib) (op : Int) (txXtime : Nat) :
    (db.recordTime op txXtime).hdr = lib.hdrRecordValue db.hdr (toI64 txXtime) := by
  unfold RocksDBCloud.recordTime
  dsimp only
  repeat' split
  all_goals rfl

/-- The numbers of `DoTransaction` are those of `RecordTime`. -/
theorem recordTime_own (db : RocksDBCloud lib) (op kind : Operation) (txXtime : Nat) :
    (db.recordTime (recordCode op) txXtime).own kind =
      if op = kind then lib.hdrRecordValue (db.own kind) (toI64 txXtime) else db.own kind := by
  cases op <;> cases kind <;> rfl

/-- The time between the readings, as the histograms are given it. -/
def latency (t : Transaction) : Int := toI64 (subU64 t.endTime t.startTime)

theorem doTransaction_opsCnt (c : Client lib) (t : Transaction) (kind : Operation) :
    (doTransaction c t).opsCnt kind = c.opsCnt kind + if t.op = kind then 1 else 0 := by
  rw [doTransaction]
  dsimp only
  rw [Function.update_apply]
  split
  next same => rw [same, if_pos rfl]
  next other => rw [if_neg (Ne.symm other), Nat.add_zero]

end YcsbCloud.Source.Statistics
