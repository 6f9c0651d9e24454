import YcsbCloud.Guarantees.HdrPercentileLines
import YcsbCloud.Source.LatencyReports

/-!
# What the latency reports say

The lines of the report cut the transactions of a client into windows. Each line tells, for
the latencies of its window, the mean and the percentiles to one part in a thousand, and so
does each column of `PrintStats` for the whole run. Latencies that are not tracked are in
none of them.
-/
namespace YcsbCloud.Guarantees.LatencyReports
open Library Library.LogLinear Library.OrderStatistics Source.HdrHistogram Source.Statistics
  Source.LatencyReports HdrBuckets HdrRecording HdrPercentiles HdrSummaries HdrPercentileLines
open Source (Operation)

/-- A latency, if it is counted. -/
def countedValue (value : ℤ) : List ℕ :=
  if 0 ≤ value ∧ value ≤ 2 ^ 32 - 1 then [value.toNat] else []

/-- The latencies that are counted of some transactions. -/
def counted (transactions : List Transaction) : List ℕ :=
  transactions.flatMap fun t => countedValue (latency t)

/-- The summary gives the mean of the latencies to one part in 1999 and the last place that is
printed, and of each percentile at least the latency of its rank and less than a thousandth
more. The bounds are those of the sum of the mean and of the ranks. -/
structure Summarises (places : ℕ) (s : Summary) (latencies : List ℕ) : Prop where
  empty : latencies = [] → s.mean = .error .nan
  mean : latencies ≠ [] → latencies.length < 2 ^ 63 → latencies.sum < 2 ^ 62 → ∃ mean,
    s.mean = .ok mean ∧
      |mean - average latencies| ≤ average latencies / 1999 + 1 / 2 / 10 ^ places
  percentiles : latencies ≠ [] → latencies.length < 2 ^ 52 →
    ∀ shown ∈ [((95 : ℚ), s.percentile95), (99, s.percentile99), (double9999, s.percentile9999)],
      ∃ x, latencies.mergeSort[rank shown.1 latencies.length - 1]? = some x ∧ x ≤ shown.2 ∧
        (shown.2 - x) * 1000 ≤ x

/-- The histogram counts the latencies of these transactions. -/
def Records (h : LatencyHistogram) (transactions : List Transaction) : Prop :=
  Holds h.histogram (slotsOf h.histogram.config (counted transactions))

theorem records_hdrInit : Records LatencyHistogram.hdrInit [] :=
  (hdrInit_spec LatencyHistogram.hdrInit_eq).2

theorem records_hdrReset (h : LatencyHistogram) : Records h.hdrReset [] := holds_hdrReset h.offset

theorem values_eq (h : LatencyHistogram) (value : ℤ) :
    recordValues.values h.histogram.config (value, 1) = countedValue value := by
  rw [recordValues, countedValue]
  by_cases inside : Tracked h.histogram.config value
  · rw [if_pos ((h.tracked_iff _).mp inside)]
    exact if_pos inside
  · rw [if_neg (fun range => inside ((h.tracked_iff _).mpr range))]
    exact if_neg inside

theorem holds_hdrRecordValue {h : LatencyHistogram} {values : List ℕ}
    (holds : Holds h.histogram (slotsOf h.histogram.config values)) (value : ℤ) :
    Holds (h.hdrRecordValue value).histogram
      (slotsOf (h.hdrRecordValue value).histogram.config (values ++ countedValue value)) := by
  have positive : 0 < (value, 1).2 := Nat.one_pos
  obtain ⟨next, called, config, held⟩ :=
    recordValues_appends h.histogram _ (value, 1) holds positive
  have recorded : (h.hdrRecordValue value).histogram = next := congrArg Prod.snd called
  rw [recorded, config, slotsOf, List.map_append, ← values_eq h]
  exact held

theorem Records.record {h : LatencyHistogram} {transactions : List Transaction}
    (records : Records h transactions) (t : Transaction) :
    Records (h.hdrRecordValue (latency t)) (transactions ++ [t]) := by
  have appended : counted (transactions ++ [t]) = counted transactions ++ countedValue (latency t) := by
    rw [counted, List.flatMap_append, List.flatMap_singleton, counted]
  rw [Records, appended]
  exact holds_hdrRecordValue records (latency t)

/-- The end of its class is less than a thousandth above a latency. -/
theorem close_above (h : LatencyHistogram) (x : ℕ) :
    x ≤ h.histogram.config.highestEquivalentValue x ∧
      (h.histogram.config.highestEquivalentValue x - x) * 1000 ≤ x := by
  have config := h.config_eq
  have low := lowestEquivalentValue_le h.histogram.valid x
  have high := le_highestEquivalentValue h.histogram.valid x
  have ends := class_width h.histogram.valid x
  have resolved := width_resolved h.histogram.valid x
  rw [show h.histogram.config.unitMagnitude = 0 by rw [config],
    show h.histogram.config.significantFigures = 3 by rw [config]] at resolved
  omega

theorem printedLf_close (places : ℕ) (x : ℚ) :
    |printedLf places x - x| ≤ 1 / 2 / 10 ^ places := by
  have unit : (0 : ℚ) < 10 ^ places := by positivity
  rw [printedLf, div_sub' (ne_of_gt unit), abs_div, abs_of_pos unit, mul_comm _ x]
  exact div_le_div_of_nonneg_right (Binary64.roundEven_close _) (le_of_lt unit)

/-- The medians of latencies are not so much above them that their sum overflows. -/
theorem medians_fit (h : LatencyHistogram) {latencies : List ℕ} (short : latencies.sum < 2 ^ 62) :
    (latencies.map h.histogram.config.hdrMedianEquivalentValue).sum ≤ INT64_MAX := by
  have close := sum_close (median_close h.histogram) latencies
  generalize (latencies.map h.histogram.config.hdrMedianEquivalentValue).sum = medians at close ⊢
  generalize latencies.sum = total at short close
  have small : (total : ℚ) < 2 ^ 62 := by exact_mod_cast short
  have above := (abs_le.mp close).2
  rw [h.config_eq] at above
  norm_num at above
  have bound : (medians : ℚ) < 2 ^ 63 := by linarith
  exact Nat.le_pred_of_lt (by exact_mod_cast bound)

theorem double9999_pos : 0 < double9999 :=
  lt_of_lt_of_le one_pos (Binary64.le_round Binary64.representable_one (by norm_num))

theorem summarises_of_records {h : LatencyHistogram} {transactions : List Transaction}
    (records : Records h transactions) (places : ℕ) :
    Summarises places (summary places h) (counted transactions) := by
  have config := h.config_eq
  refine ⟨?_, ?_, ?_⟩
  · intro fresh
    rw [Records, fresh] at records
    rw [summary, hdrMean_eq records, if_neg (by simp), if_pos rfl]
    rfl
  · intro nonempty countable short
    obtain ⟨mean, computed, close⟩ :=
      mean_of_holds rfl records nonempty countable (medians_fit h short)
    have rounded := abs_le.mp (printedLf_close places mean)
    have positive : 0 ≤ average (counted transactions) := by
      unfold average
      positivity
    refine ⟨printedLf places mean, by rw [summary, computed]; rfl, ?_⟩
    rw [IsMean, config] at close
    obtain ⟨below, above⟩ := abs_le.mp close
    norm_num [halfResolution] at below above
    rw [abs_le]
    constructor <;> linarith [rounded.1, rounded.2]
  · intro nonempty few
    have exact (p : ℚ) (positive : p ≠ 0) : ∃ x,
        (counted transactions).mergeSort[rank p (counted transactions).length - 1]? = some x ∧
          x ≤ h.histogram.hdrValueAtPercentile p ∧
          (h.histogram.hdrValueAtPercentile p - x) * 1000 ≤ x := by
      obtain ⟨x, ranked, found⟩ := (percentiles_of_holds rfl records few).ranked nonempty p
      rw [found, reported, if_neg positive]
      exact ⟨x, ranked, close_above h x⟩
    intro shown member
    simp only [List.mem_cons, List.not_mem_nil, or_false] at member
    obtain rfl | rfl | rfl := member
    · exact exact 95 (by norm_num)
    · exact exact 99 (by norm_num)
    · exact exact double9999 (ne_of_gt double9999_pos)

/-- The histograms of the driver after some transactions, the latest since a line. -/
structure Recorded (db : Source.Statistics.RocksDBCloud library)
    (all window : List Transaction) : Prop where
  hdr : Records db.hdr all
  hdrLast1s : Records db.hdrLast1s window
  own : ∀ kind, Records (db.own kind) (all.filter fun t => t.op = kind)

theorem recorded_start (qps : Int64) : Recorded (start library qps).db [] [] where
  hdr := records_hdrInit
  hdrLast1s := records_hdrInit
  own := fun kind => by cases kind <;> exact records_hdrInit

theorem recordTime_hdrLast1s (db : Source.Statistics.RocksDBCloud library) (op : ℤ) (txXtime : ℕ) :
    (db.recordTime op txXtime).hdrLast1s = library.hdrRecordValue db.hdrLast1s (toI64 txXtime) := by
  unfold Source.Statistics.RocksDBCloud.recordTime
  dsimp only
  repeat' split
  all_goals rfl

theorem recordTime_qps (db : Source.Statistics.RocksDBCloud library) (op : ℤ) (txXtime : ℕ) :
    (db.recordTime op txXtime).qps = db.qps + 1 := by
  unfold Source.Statistics.RocksDBCloud.recordTime
  dsimp only
  repeat' split
  all_goals rfl

theorem Recorded.doTransaction {c : Client library} {all window : List Transaction}
    (recorded : Recorded c.db all window) (t : Transaction) :
    Recorded (doTransaction c t).db (all ++ [t]) (window ++ [t]) where
  hdr := by
    rw [Source.Statistics.doTransaction, recordTime_hdr]
    exact recorded.hdr.record t
  hdrLast1s := by
    rw [Source.Statistics.doTransaction, recordTime_hdrLast1s]
    exact recorded.hdrLast1s.record t
  own := fun kind => by
    rw [Source.Statistics.doTransaction, recordTime_own, List.filter_append]
    split
    next same =>
      rw [List.filter_cons_of_pos (by simpa using same), List.filter_nil]
      exact (recorded.own kind).record t
    next other =>
      rw [List.filter_cons_of_neg (by simpa using other), List.filter_nil, List.append_nil]
      exact recorded.own kind

theorem latencyHiccup_own (db : Source.Statistics.RocksDBCloud library) (kind : Operation) :
    (latencyHiccup db).2.own kind = db.own kind := by
  cases kind <;> rfl

theorem Recorded.latencyHiccup {db : Source.Statistics.RocksDBCloud library}
    {all window : List Transaction}
    (recorded : Recorded db all window) : Recorded (latencyHiccup db).2 all [] where
  hdr := recorded.hdr
  hdrLast1s := records_hdrReset db.hdrLast1s
  own := fun kind => by
    rw [latencyHiccup_own]
    exact recorded.own kind

/-- The transactions of each line, and those since the last line. A line is printed when
the clock is a second past the start of its window. -/
def windows (tiktokStart : ℕ) (window : List Transaction) :
    List Turn → List (List Transaction) × List Transaction
  | [] => ([], window)
  | turn :: rest =>
    if 1000000 ≤ Source.subU64 turn.now tiktokStart then
      let (done, last) := windows turn.restart [] rest
      ((window ++ [turn.transaction]) :: done, last)
    else windows tiktokStart (window ++ [turn.transaction]) rest

theorem windows_partition (tiktokStart : ℕ) (window : List Transaction) (turns : List Turn) :
    (windows tiktokStart window turns).1.flatten ++ (windows tiktokStart window turns).2 =
      window ++ turns.map Turn.transaction := by
  induction turns generalizing tiktokStart window with
  | nil => exact (List.append_nil window).symm
  | cons turn rest ih =>
    rw [windows, List.map_cons]
    split
    · dsimp only
      rw [List.flatten_cons, List.append_assoc, ih, List.append_assoc]
      rfl
    · rw [ih, List.append_assoc]
      rfl

/-- The numbers of transactions in the lines. Before the first line `qps` starts from what
the memory held. -/
def shownQps (qps : Int64) : List (List Transaction) → List Int64
  | [] => []
  | window :: rest => (qps + Int64.ofNat window.length) :: shownQps 0 rest

/-- Each line is for its window. -/
def LinesFor (lines : List HiccupLine) (done : List (List Transaction)) : Prop :=
  List.Forall₂ (fun line window => Summarises 2 line.summary (counted window)) lines done

theorem run_reports (r : Reporting) {all window : List Transaction} {qps : Int64}
    (recorded : Recorded r.client.db all window)
    (count : r.client.db.qps = qps + Int64.ofNat window.length) (turns : List Turn) :
    ∃ lines, (turns.foldl delegateClient r).printed = r.printed ++ lines ∧
      LinesFor lines (windows r.tiktokStart window turns).1 ∧
      lines.map HiccupLine.qps = shownQps qps (windows r.tiktokStart window turns).1 ∧
      Recorded (turns.foldl delegateClient r).client.db (all ++ turns.map Turn.transaction)
        (windows r.tiktokStart window turns).2 := by
  induction turns generalizing r all window qps with
  | nil => exact ⟨[], (List.append_nil _).symm, .nil, rfl, (List.append_nil all).symm ▸ recorded⟩
  | cons turn rest ih =>
    have performed := recorded.doTransaction turn.transaction
    have counts : (doTransaction r.client turn.transaction).db.qps =
        qps + Int64.ofNat (window ++ [turn.transaction]).length := by
      rw [doTransaction, recordTime_qps, count, List.length_append, List.length_singleton,
        Int64.ofNat_add, Int64.add_assoc]
      rfl
    have later : all ++ turn.transaction :: rest.map Turn.transaction =
        all ++ [turn.transaction] ++ rest.map Turn.transaction := by
      rw [List.append_assoc, List.singleton_append]
    rw [List.foldl_cons, List.map_cons, later, windows]
    split
    next due =>
      have moved : delegateClient r turn = ⟨{ doTransaction r.client turn.transaction with
          db := (latencyHiccup (doTransaction r.client turn.transaction).db).2 }, turn.restart,
          r.printed ++ [(latencyHiccup (doTransaction r.client turn.transaction).db).1]⟩ := if_pos due
      have restarted : (delegateClient r turn).client.db.qps =
          0 + Int64.ofNat ([] : List Transaction).length := by
        rw [moved]
        rfl
      have reset : Recorded (delegateClient r turn).client.db (all ++ [turn.transaction]) [] := by
        rw [moved]
        exact performed.latencyHiccup
      obtain ⟨lines, printed, told, shown, final⟩ := ih (delegateClient r turn) reset restarted
      have started : (delegateClient r turn).tiktokStart = turn.restart := by rw [moved]
      rw [started] at told shown final
      refine ⟨(latencyHiccup (doTransaction r.client turn.transaction).db).1 :: lines, ?_,
        .cons (summarises_of_records performed.hdrLast1s 2) told, ?_, final⟩
      · rw [printed, moved, List.append_assoc]
        rfl
      · rw [List.map_cons, shownQps, shown, ← counts]
        rfl
    next early =>
      have moved : delegateClient r turn = { r with client := doTransaction r.client turn.transaction } :=
        if_neg early
      rw [moved]
      exact ih _ performed counts

/-- The reports of a client that runs alone. The windows cut the run, whatever the clock
shows. Each line is for its window and shows how many transactions it has, the first one
on top of what `qps` was in memory. Each column of `PrintStats` is for all transactions of
its kind. -/
theorem reports_tell (qps : Int64) (tiktokStart : ℕ) (turns : List Turn) :
    construct qps = some (start library qps).db ∧
    (windows tiktokStart [] turns).1.flatten ++ (windows tiktokStart [] turns).2 =
      turns.map Turn.transaction ∧
    ∃ final, turns.foldl delegateClient ⟨start library qps, tiktokStart, []⟩ = final ∧
      LinesFor final.printed (windows tiktokStart [] turns).1 ∧
      final.printed.map HiccupLine.qps = shownQps qps (windows tiktokStart [] turns).1 ∧
      List.Forall₂ (fun column transactions => Summarises 3 column (counted transactions))
        (printStats final.client.db)
        (turns.map Turn.transaction :: [Operation.READ, .INSERT, .UPDATE, .SCAN, .READMODIFYWRITE].map
          fun kind => (turns.map Turn.transaction).filter fun t => t.op = kind) := by
  obtain ⟨lines, printed, told, shown, final⟩ := run_reports ⟨start library qps, tiktokStart, []⟩
    (recorded_start qps) (Int64.add_zero qps).symm turns
  rw [List.nil_append] at printed final
  refine ⟨?_, windows_partition tiktokStart [] turns, _, rfl, printed ▸ told, printed ▸ shown, ?_⟩
  · rw [construct, LatencyHistogram.hdrInit_eq]
    dsimp only
    rw [LatencyHistogram.config_eq, if_neg (by decide)]
  · exact .cons (summarises_of_records final.hdr 3) (.cons (summarises_of_records (final.own .READ) 3)
      (.cons (summarises_of_records (final.own .INSERT) 3)
        (.cons (summarises_of_records (final.own .UPDATE) 3)
          (.cons (summarises_of_records (final.own .SCAN) 3)
            (.cons (summarises_of_records (final.own .READMODIFYWRITE) 3) .nil)))))

/-- A read, an update and a scan, with a line after the update. -/
theorem reports_tell_line : ∃ line mean,
    ([⟨⟨.READ, 100, 350⟩, 350, 350⟩, ⟨⟨.UPDATE, 400, 4400⟩, 1000001, 1000010⟩,
      ⟨⟨.SCAN, 1000020, 1000900⟩, 1000900, 1000900⟩].foldl delegateClient
        ⟨start library 0, 0, []⟩).printed = [line] ∧
    line.qps = 2 ∧ line.summary.mean = .ok mean ∧
    |mean - 2125| ≤ 2125 / 1999 + 1 / 2 / 10 ^ 2 := by
  obtain ⟨_, _, final, ran, lines, shown, _⟩ := reports_tell 0 0
    [⟨⟨.READ, 100, 350⟩, 350, 350⟩, ⟨⟨.UPDATE, 400, 4400⟩, 1000001, 1000010⟩,
      ⟨⟨.SCAN, 1000020, 1000900⟩, 1000900, 1000900⟩]
  have cut : (windows 0 [] [⟨⟨.READ, 100, 350⟩, 350, 350⟩, ⟨⟨.UPDATE, 400, 4400⟩, 1000001, 1000010⟩,
      ⟨⟨.SCAN, 1000020, 1000900⟩, 1000900, 1000900⟩]).1 =
      [[⟨.READ, 100, 350⟩, ⟨.UPDATE, 400, 4400⟩]] := by decide
  have tracked : counted [⟨.READ, 100, 350⟩, ⟨.UPDATE, 400, 4400⟩] = [250, 4000] := by decide
  have middle : average [250, 4000] = 2125 := by norm_num [average]
  rw [cut] at lines shown
  obtain ⟨line, _, told, none_left, printed⟩ := List.forall₂_cons_right_iff.mp lines
  rw [List.forall₂_nil_right_iff.mp none_left] at printed
  rw [printed] at shown
  rw [tracked] at told
  obtain ⟨mean, shows, close⟩ := told.mean (by decide) (by decide) (by decide)
  rw [middle] at close
  refine ⟨line, mean, ran ▸ printed, ?_, shows, close⟩
  exact List.head_eq_of_cons_eq shown

end YcsbCloud.Guarantees.LatencyReports
