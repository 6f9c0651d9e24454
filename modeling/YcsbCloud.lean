import YcsbCloud.Library.Machine
import YcsbCloud.Library.Interleaving
import YcsbCloud.Library.LittleEndian
import YcsbCloud.Library.LogLinear
import YcsbCloud.Library.InverseTransform
import YcsbCloud.Library.Binary64
import YcsbCloud.Library.Delimited
import YcsbCloud.Library.PartialMap
import YcsbCloud.Library.Memory
import YcsbCloud.Library.OrderStatistics
import YcsbCloud.Library.Varint
import YcsbCloud.Library.RunLength
import YcsbCloud.Library.Places
import YcsbCloud.Source.Strings
import YcsbCloud.Source.Coding
import YcsbCloud.Source.CharBuffer
import YcsbCloud.Source.Db
import YcsbCloud.Source.Utils
import YcsbCloud.Source.Generators
import YcsbCloud.Source.Zipfian
import YcsbCloud.Source.SkewedLatest
import YcsbCloud.Source.DiscreteGenerator
import YcsbCloud.Source.Properties
import YcsbCloud.Source.CommandLine
import YcsbCloud.Source.CoreWorkload
import YcsbCloud.Source.Client
import YcsbCloud.Source.DelegateClient
import YcsbCloud.Source.ProgressReport
import YcsbCloud.Source.IopsReport
import YcsbCloud.Source.RecordCodec
import YcsbCloud.Source.RocksDBCloud
import YcsbCloud.Source.StringHashtable
import YcsbCloud.Source.HashtableDB
import YcsbCloud.Source.HdrHistogram
import YcsbCloud.Source.HdrIterator
import YcsbCloud.Source.HdrPercentileIterator
import YcsbCloud.Source.HdrEncoding
import YcsbCloud.Source.HdrHistogramLog
import YcsbCloud.Source.HdrLogReader
import YcsbCloud.Source.HdrAtomic
import YcsbCloud.Source.HdrPhaser
import YcsbCloud.Source.HdrIntervalRecorder
import YcsbCloud.Source.Statistics
import YcsbCloud.Source.LatencyReports
import YcsbCloud.Source.SizeTrend
import YcsbCloud.Guarantees.RecordRoundTrip
import YcsbCloud.Guarantees.DecoderSafety
import YcsbCloud.Guarantees.CloudDriver
import YcsbCloud.Guarantees.QueryContract
import YcsbCloud.Guarantees.WorkloadInit
import YcsbCloud.Guarantees.LoadPhase
import YcsbCloud.Guarantees.RunPhase
import YcsbCloud.Guarantees.KeyRanges
import YcsbCloud.Guarantees.KeyRejection
import YcsbCloud.Guarantees.KeyNames
import YcsbCloud.Guarantees.IopsReport
import YcsbCloud.Guarantees.HashtableOwnership
import YcsbCloud.Guarantees.HashtableRefinement
import YcsbCloud.Guarantees.RecordIsolation
import YcsbCloud.Guarantees.HashtableWrites
import YcsbCloud.Guarantees.HashtableHandles
import YcsbCloud.Guarantees.FieldNames
import YcsbCloud.Guarantees.ZipfianRange
import YcsbCloud.Guarantees.ZipfianGrowth
import YcsbCloud.Guarantees.LatestChooser
import YcsbCloud.Guarantees.OperationChooser
import YcsbCloud.Guarantees.PropertyFiles
import YcsbCloud.Guarantees.CommandLine
import YcsbCloud.Guarantees.Statistics
import YcsbCloud.Guarantees.SizeTrend
import YcsbCloud.Guarantees.ProgressReport
import YcsbCloud.Guarantees.FixedWidthFormat
import YcsbCloud.Guarantees.HdrBuckets
import YcsbCloud.Guarantees.HdrRecording
import YcsbCloud.Guarantees.HdrIterator
import YcsbCloud.Guarantees.HdrPercentiles
import YcsbCloud.Guarantees.HdrMerge
import YcsbCloud.Guarantees.HdrSummaries
import YcsbCloud.Guarantees.HdrPercentileLines
import YcsbCloud.Guarantees.HdrEncoding
import YcsbCloud.Guarantees.HdrPayload
import YcsbCloud.Guarantees.HdrHistogramLog
import YcsbCloud.Guarantees.HdrLogReader
import YcsbCloud.Guarantees.HdrLogFile
import YcsbCloud.Guarantees.HdrAtomic
import YcsbCloud.Guarantees.HdrPhaser
import YcsbCloud.Guarantees.HdrIntervalRecorder
import YcsbCloud.Guarantees.HdrSamples
import YcsbCloud.Guarantees.HdrReturns
import YcsbCloud.Guarantees.LatencyReports
import YcsbCloud.Guarantees.LoadedStore
