import YcsbCloud.Guarantees.HdrRecording
import YcsbCloud.Source.HdrPercentileIterator
import YcsbCloud.Source.Statistics

/-!
# The latency reports of `RocksDBCloud`

The histograms of the driver are those of `hdr_histogram.c`, which keeps what the
statistics rely on. A client that runs alone performs its transactions, and once a second
has passed `latency_hiccup` prints a line for those since the line before. `PrintStats`
prints a column for each histogram. What is printed is kept as numbers: a mean to the
decimal places of its format, and `99.99` as the double that it stands for.
-/
namespace YcsbCloud.Source.LatencyReports
open Library HdrHistogram Statistics Guarantees.HdrBuckets Guarantees.HdrRecording

/-- A histogram that the constructor of `RocksDBCloud` made. -/
structure LatencyHistogram where
  histogram : Histogram
  accepted : hdrCalculateBucketConfig 1 3600000000 3 = .ok histogram.config
  offset : histogram.normalizingIndexOffset = 0

namespace LatencyHistogram

theorem config_eq (h : LatencyHistogram) :
    h.histogram.config = ⟨1, 3600000000, 0, 3, 10, 1024, 2047, 2048, 22, 23552⟩ :=
  Except.ok.inj (h.accepted.symm.trans latency_config)

/-- Every latency below `2 ^ 32` has an index, also the ones above an hour. -/
theorem tracked_iff (h : LatencyHistogram) (value : ℤ) :
    Tracked h.histogram.config value ↔ 0 ≤ value ∧ value ≤ 2 ^ 32 - 1 := by
  have below : trackedBelow h.histogram.config = 2 ^ 32 := by
    rw [config_eq]
    decide
  rw [Tracked, below]
  omega

/-- `hdr_init(1, INT64_C(3600000000), 3, ..)`. -/
def hdrInit : LatencyHistogram :=
  match created : HdrHistogram.hdrInit 1 3600000000 3 with
  | .ok h => ⟨h, (hdrInit_spec created).1, (hdrInit_spec created).2.offset⟩
  | .error _ => absurd created (by
      obtain ⟨h, ok, _⟩ := hdrInit_of_config latency_config
      rw [ok]
      exact nofun)

theorem hdrInit_eq : HdrHistogram.hdrInit 1 3600000000 3 = .ok hdrInit.histogram := by
  unfold hdrInit
  split
  next h created => exact created
  next _ refused =>
    obtain ⟨h, ok, _⟩ := hdrInit_of_config latency_config
    rw [ok] at refused
    cases refused

def hdrRecordValue (h : LatencyHistogram) (value : ℤ) : LatencyHistogram where
  histogram := (h.histogram.hdrRecordValue value).2
  accepted := by rw [Histogram.hdrRecordValue, hdrRecordValues_config, h.accepted]
  offset := by
    rw [Histogram.hdrRecordValue, hdrRecordValues_eq]
    split <;> exact h.offset

def hdrReset (h : LatencyHistogram) : LatencyHistogram where
  histogram := h.histogram.hdrReset
  accepted := h.accepted
  offset := h.offset

end LatencyHistogram

/-- `hdr_histogram.c` keeps what the statistics rely on. -/
@[reducible] def library : HdrLibrary where
  Histogram := LatencyHistogram
  hdrInit := LatencyHistogram.hdrInit
  hdrRecordValue := LatencyHistogram.hdrRecordValue
  totalCount := fun h => h.histogram.totalCount
  highestTrackable := 2 ^ 32 - 1
  hour_le := by decide
  totalCount_init := (hdrInit_spec LatencyHistogram.hdrInit_eq).2.total
  counts := fun h value inside => by
    dsimp only [LatencyHistogram.hdrRecordValue, Histogram.hdrRecordValue]
    rw [hdrRecordValues_eq, if_pos ((h.tracked_iff value).mpr inside)]
    rfl
  drops := fun h value outside => by
    have refused := hdrRecordValues_refused (fun inside => outside ((h.tracked_iff value).mp inside)) 1
    cases h
    simp only [LatencyHistogram.hdrRecordValue, Histogram.hdrRecordValue, refused]

/-- The histograms of the constructor of `RocksDBCloud`, which makes seven calls with the
same arguments, and exits if the counts are more than it expects. -/
def construct (qps : Int64) : Option (Statistics.RocksDBCloud library) :=
  match hdrInit 1 3600000000 3 with
  | .error _ => none
  | .ok h =>
    if 23552 < h.config.countsLen then none
    else some (start library qps).db

/-- A number as `%lf` prints it, with so many decimal places. -/
def printedLf (places : ℕ) (x : ℚ) : ℚ := Binary64.roundEven (x * 10 ^ places) / 10 ^ places

/-- The mean and the percentiles that are printed of a histogram. -/
structure Summary where
  mean : Except Histogram.NoMean ℚ
  percentile95 : ℕ
  percentile99 : ℕ
  percentile9999 : ℕ
  deriving DecidableEq, Repr

/-- The percentile `99.99`. -/
def double9999 : ℚ := Binary64.round (9999 / 100)

def summary (places : ℕ) (h : LatencyHistogram) : Summary where
  mean := h.histogram.hdrMean.map (printedLf places)
  percentile95 := h.histogram.hdrValueAtPercentile 95
  percentile99 := h.histogram.hdrValueAtPercentile 99
  percentile9999 := h.histogram.hdrValueAtPercentile double9999

/-- A line of `rocksdb-lat.hiccup`. -/
structure HiccupLine where
  summary : Summary
  qps : Int64

/-- `latency_hiccup`. -/
def latencyHiccup (db : Statistics.RocksDBCloud library) : HiccupLine × Statistics.RocksDBCloud library :=
  (⟨summary 2 db.hdrLast1s, db.qps⟩,
    { db with
      hdrLast1s := LatencyHistogram.hdrReset db.hdrLast1s
      qps := 0 })

/-- The columns of `PrintStats`: ALL, GET, PUT, UPD, SCAN, RMW. -/
def printStats (db : Statistics.RocksDBCloud library) : List Summary :=
  [summary 3 db.hdr, summary 3 db.hdrGet, summary 3 db.hdrPut, summary 3 db.hdrUpdate,
    summary 3 db.hdrScan, summary 3 db.hdrRmw]

/-- The state of `DelegateClient` while a single client performs transactions: its client,
`tiktok_start`, and the lines printed so far. -/
structure Reporting where
  client : Client library
  tiktokStart : ℕ
  printed : List HiccupLine

/-- A pass of the loop: the transaction, the clock after it, and the clock after a line. -/
structure Turn where
  transaction : Transaction
  now : ℕ
  restart : ℕ

def delegateClient (r : Reporting) (turn : Turn) : Reporting :=
  let client := doTransaction r.client turn.transaction
  let tiktoks := subU64 turn.now r.tiktokStart
  if 1000000 ≤ tiktoks then
    let (line, db) := latencyHiccup client.db
    ⟨{ client with db := db }, turn.restart, r.printed ++ [line]⟩
  else { r with client := client }

end YcsbCloud.Source.LatencyReports
