import YcsbCloud.Source.Statistics

/-!
# Agreement of the three sets of statistics

A transaction is counted in `ops_cnt` whatever its latency, and in the histograms if
they track its latency. The latency is an unsigned difference of two readings of the
wall clock that the histograms take as signed. After a run the statistics agree if
they track all latencies of the run, and only then.
-/
namespace YcsbCloud.Guarantees.Statistics
open Source Source.Statistics

variable {lib : HdrLibrary}

/-- The clock did not step back during the transaction, which took no longer than the
histograms track. -/
def Tracked (lib : HdrLibrary) (t : Transaction) : Prop :=
  0 ≤ ((t.endTime : Int) - t.startTime).bmod (2 ^ 64) ∧
    ((t.endTime : Int) - t.startTime).bmod (2 ^ 64) ≤ lib.highestTrackable

instance (t : Transaction) : Decidable (Tracked lib t) := inferInstanceAs (Decidable (_ ∧ _))

theorem subU64_cast (a b : Nat) : (subU64 a b : Int) = ((a : Int) - b) % (2 ^ 64 : Nat) := by
  rw [subU64, show ((2 ^ 64 : Nat) : Int) = 18446744073709551616 from rfl]
  omega

theorem latency_eq (t : Transaction) :
    latency t = ((t.endTime : Int) - t.startTime).bmod (2 ^ 64) := by
  have same := Int.emod_bmod ((t.endTime : Int) - t.startTime) (2 ^ 64)
  rw [← subU64_cast] at same
  exact same

/-- A value is counted exactly if it is tracked. -/
theorem totalCount_record (h : lib.Histogram) (t : Transaction) :
    lib.totalCount (lib.hdrRecordValue h (latency t)) =
      lib.totalCount h + if Tracked lib t then 1 else 0 := by
  rw [latency_eq]
  split
  next tracked => exact lib.counts h _ tracked
  next dropped => rw [lib.drops h _ dropped, Nat.add_zero]

theorem run_opsCnt (c : Client lib) (run : List Transaction) (kind : Operation) :
    (runTransactions c run).opsCnt kind = c.opsCnt kind + run.countP fun t => t.op = kind := by
  induction run generalizing c with
  | nil => rfl
  | cons t rest ih =>
    rw [runTransactions, List.foldl_cons, ← runTransactions, ih, doTransaction_opsCnt,
      List.countP_cons]
    simp only [decide_eq_true_eq]
    omega

theorem run_hdr (c : Client lib) (run : List Transaction) :
    lib.totalCount (runTransactions c run).db.hdr =
      lib.totalCount c.db.hdr + run.countP fun t => Tracked lib t := by
  induction run generalizing c with
  | nil => rfl
  | cons t rest ih =>
    have counted : lib.totalCount (doTransaction c t).db.hdr =
        lib.totalCount c.db.hdr + if Tracked lib t then 1 else 0 :=
      (congrArg lib.totalCount (recordTime_hdr c.db _ _)).trans (totalCount_record c.db.hdr t)
    rw [runTransactions, List.foldl_cons, ← runTransactions, ih, counted, List.countP_cons]
    simp only [decide_eq_true_eq]
    omega

theorem run_own (c : Client lib) (run : List Transaction) (kind : Operation) :
    lib.totalCount ((runTransactions c run).db.own kind) =
      lib.totalCount (c.db.own kind) + run.countP fun t => t.op = kind ∧ Tracked lib t := by
  induction run generalizing c with
  | nil => rfl
  | cons t rest ih =>
    have written : (doTransaction c t).db.own kind = if t.op = kind then
        lib.hdrRecordValue (c.db.own kind) (latency t) else c.db.own kind :=
      recordTime_own c.db t.op kind _
    have counted : lib.totalCount ((doTransaction c t).db.own kind) =
        lib.totalCount (c.db.own kind) + if t.op = kind ∧ Tracked lib t then 1 else 0 := by
      rw [written]
      by_cases same : t.op = kind
      · rw [if_pos same, totalCount_record]
        simp only [same, true_and]
      · simp only [same, false_and, if_false, Nat.add_zero]
    rw [runTransactions, List.foldl_cons, ← runTransactions, ih, counted, List.countP_cons]
    simp only [decide_eq_true_eq]
    omega

/-- Every operation is of one of the five kinds. -/
theorem countP_kinds (run : List Transaction) :
    (run.countP fun t => t.op = .INSERT) + (run.countP fun t => t.op = .READ) +
      (run.countP fun t => t.op = .UPDATE) + (run.countP fun t => t.op = .SCAN) +
      (run.countP fun t => t.op = .READMODIFYWRITE) = run.length := by
  induction run with
  | nil => rfl
  | cons t rest ih =>
    simp only [List.countP_cons, List.length_cons, decide_eq_true_eq]
    cases t.op <;> simp <;> omega

/-- The counters of the operations are the counts of their histograms, and the common
histogram counts as much as the five together, which is the number of transactions. -/
structure Agree (c : Client lib) (transactions : Nat) : Prop where
  kinds : ∀ kind, c.opsCnt kind = lib.totalCount (c.db.own kind)
  common : lib.totalCount c.db.hdr = lib.totalCount c.db.hdrPut + lib.totalCount c.db.hdrGet +
    lib.totalCount c.db.hdrUpdate + lib.totalCount c.db.hdrScan + lib.totalCount c.db.hdrRmw
  all : lib.totalCount c.db.hdr = transactions

/-- The statistics agree after each transaction of a run. -/
def AlwaysAgree (lib : HdrLibrary) (qps : Int64) (run : List Transaction) : Prop :=
  ∀ earlier later, run = earlier ++ later →
    Agree (runTransactions (start lib qps) earlier) earlier.length

theorem agree_of_tracked (qps : Int64) (run : List Transaction)
    (tracked : ∀ t ∈ run, Tracked lib t) :
    Agree (runTransactions (start lib qps) run) run.length := by
  have own (kind : Operation) :
      lib.totalCount ((runTransactions (start lib qps) run).db.own kind) =
        run.countP fun t => t.op = kind := by
    have fresh : lib.totalCount ((start lib qps).db.own kind) = 0 := by
      cases kind <;> exact lib.totalCount_init
    rw [run_own, fresh, Nat.zero_add]
    exact List.countP_congr fun t member => by simp [tracked t member]
  have hdr : lib.totalCount (runTransactions (start lib qps) run).db.hdr = run.length := by
    rw [run_hdr, show (start lib qps).db.hdr = lib.hdrInit from rfl, lib.totalCount_init,
      Nat.zero_add, List.countP_eq_length]
    exact fun t member => decide_eq_true (tracked t member)
  refine ⟨?_, ?_, hdr⟩
  · intro kind
    rw [own, run_opsCnt]
    exact Nat.zero_add _
  · rw [hdr, ← countP_kinds run, ← own, ← own, ← own, ← own, ← own]
    rfl

/-- The statistics agree throughout a run exactly if every latency is tracked. -/
theorem always_agree_iff (lib : HdrLibrary) (qps : Int64) (run : List Transaction) :
    AlwaysAgree lib qps run ↔ ∀ t ∈ run, Tracked lib t := by
  constructor
  · intro agree t member
    have all := (agree run [] (List.append_nil run).symm).all
    rw [run_hdr, show (start lib qps).db.hdr = lib.hdrInit from rfl, lib.totalCount_init,
      Nat.zero_add, List.countP_eq_length] at all
    exact of_decide_eq_true (all t member)
  · intro tracked earlier later split
    refine agree_of_tracked qps earlier ?_
    intro t member
    exact tracked t (by rw [split]; exact List.mem_append_left later member)

/-- Histograms that are nothing but their counts. -/
def counting : HdrLibrary where
  Histogram := Nat
  hdrInit := 0
  hdrRecordValue := fun h value => if 0 ≤ value ∧ value ≤ 3600000000 then h + 1 else h
  totalCount := id
  highestTrackable := 3600000000
  hour_le := le_refl _
  totalCount_init := rfl
  counts := fun _ _ tracked => if_pos tracked
  drops := fun _ _ dropped => if_neg dropped

/-- The clock steps back by a microsecond while a record is read. -/
def steppedBack : Transaction := ⟨.READ, 1, 0⟩

/-- The read is counted, and no histogram has it. -/
theorem stepped_back_uncounted :
    (runTransactions (start counting 0) [steppedBack]).opsCnt .READ = 1 ∧
      counting.totalCount (runTransactions (start counting 0) [steppedBack]).db.hdrGet = 0 ∧
      ¬ AlwaysAgree counting 0 [steppedBack] := by
  have untracked : ¬ Tracked counting steppedBack := by decide
  have uncounted :
      counting.totalCount (runTransactions (start counting 0) [steppedBack]).db.hdrGet = 0 := by
    have counted := run_own (start counting 0) [steppedBack] .READ
    rw [List.countP_cons, if_neg (by simp [untracked])] at counted
    exact counted
  have performed : (runTransactions (start counting 0) [steppedBack]).opsCnt .READ = 1 :=
    run_opsCnt (start counting 0) [steppedBack] .READ
  refine ⟨performed, uncounted, ?_⟩
  intro agree
  have same := (agree [steppedBack] [] rfl).kinds .READ
  rw [performed] at same
  exact absurd (same.trans uncounted) Nat.one_ne_zero

end YcsbCloud.Guarantees.Statistics
