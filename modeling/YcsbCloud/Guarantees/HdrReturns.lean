import YcsbCloud.Guarantees.HdrSamples

/-!
# Every call can return

A writer waits for nobody: alone, it has a number of operations left that only falls. A reader
waits for the mutex, and in its flip for the writers of the phase before.
-/
namespace YcsbCloud.Guarantees.HdrIntervalRecorder
open Library.Interleaving Source.HdrHistogram Source.HdrAtomic Source.HdrPhaser
  Source.HdrIntervalRecorder HdrRecording HdrAtomic HdrPhaser

variable {ι : Type*} [DecidableEq ι] [Fintype ι]

/-- The operations that a recording has left while no other thread writes to the histogram. An
exchange fails only when its value is stale. -/
def operationsLeft (h : Histogram) : Recording → ℕ
  | .addCount .. => 6
  | .addTotal .. => 5
  | .loadMin _ => 4
  | .exchangeMin _ currentMinValue => if h.minValue = currentMinValue then 3 else 5
  | .loadMax _ => 2
  | .exchangeMax _ currentMaxValue => if h.maxValue = currentMaxValue then 1 else 3

/-- What a call that goes on has left, with the values after this one. -/
def callLeft (h : Histogram) : InCall ⊕ Bool → ℕ
  | .inl t => 6 * (remaining t.call t.value).tail.length + operationsLeft h t.recording
  | .inr _ => 0

theorem operationsLeft_pos (h : Histogram) (r : Recording) : 0 < operationsLeft h r := by
  cases r with
  | addCount value count | addTotal value count | loadMin value | loadMax value =>
    exact Nat.succ_pos _
  | exchangeMin value current | exchangeMax value current =>
    rw [operationsLeft]
    split <;> exact Nat.succ_pos _

theorem operationsLeft_exchangeMin (h : Histogram) (value : ℕ) :
    operationsLeft h (.exchangeMin value h.minValue) = 3 := if_pos rfl

theorem operationsLeft_exchangeMax (h : Histogram) (value : ℕ) :
    operationsLeft h (.exchangeMax value h.maxValue) = 1 := if_pos rfl

theorem operationsLeft_operate {h h' : Histogram} {r next : Recording}
    (operated : r.operate h = (h', some next)) : operationsLeft h' next < operationsLeft h r := by
  cases r with
  | addCount value count | addTotal value count =>
    cases operated
    exact Nat.lt_succ_self _
  | loadMin value =>
    cases operated
    by_cases low : 0 = value ∨ h.minValue ≤ value
    · rw [if_pos low]
      exact Nat.lt_of_sub_pos (Nat.succ_pos 1)
    · rw [if_neg low, operationsLeft_exchangeMin]
      exact Nat.lt_succ_self _
  | exchangeMin value current =>
    dsimp only [Recording.operate] at operated
    rw [operationsLeft]
    split at operated
    next same =>
      cases operated
      rw [if_pos same]
      exact Nat.lt_succ_self _
    next stale =>
      cases operated
      rw [if_neg stale]
      exact Nat.lt_succ_self _
  | loadMax value =>
    dsimp only [Recording.operate] at operated
    split at operated
    · cases operated
    · cases operated
      rw [operationsLeft_exchangeMax]
      exact Nat.lt_succ_self _
  | exchangeMax value current =>
    dsimp only [Recording.operate] at operated
    rw [operationsLeft]
    split at operated
    · cases operated
    next stale =>
      cases operated
      rw [if_neg stale]
      exact Nat.lt_succ_self _

/-- What is left when a call comes to the recording of a value. -/
theorem callLeft_record (h : Histogram) (call : Call) (value : ℤ) :
    callLeft h (call.record h.config value) ≤ 6 * (remaining call value).length := by
  rw [Call.record, start_eq h.valid]
  by_cases tracked : Tracked h.config value
  · rw [if_pos tracked, remaining_eq]
    dsimp only [callLeft, operationsLeft]
    rw [remaining_eq, List.tail_cons, List.length_cons]
    omega
  · rw [if_neg tracked]
    exact Nat.zero_le _

theorem callLeft_operate (h : Histogram) (t : InCall) :
    callLeft (t.operate h).1 (t.operate h).2 < callLeft h (.inl t) := by
  have positive := operationsLeft_pos h t.recording
  have config := operate_config h t.recording
  rw [InCall.operate, callLeft.eq_1 h]
  cases operated : t.recording.operate h with
  | mk h' next =>
    cases next with
    | some recording =>
      have less := operationsLeft_operate operated
      dsimp only [callLeft]
      omega
    | none =>
      dsimp only
      cases more : t.call.missingValue t.value with
      | none =>
        dsimp only [callLeft]
        omega
      | some missing =>
        have following := callLeft_record h' t.call missing
        rw [operated] at config
        dsimp only at config ⊢
        rw [remaining_eq, more, Option.map_some, Option.getD_some, List.tail_cons]
        rw [config] at following ⊢
        omega

/-- What a thread that records has left while it runs alone. -/
def writerLeft (r : Recorder) : Thread → ℕ
  | .writing (.loadActive _ call) => 6 * (remaining call call.value).length + 2
  | .writing (.update _ active t) =>
    match r.histograms[active]? with
    | none => 0
    | some s => callLeft s.histogram (.inl t) + 1
  | .writing (.exit ..) => 1
  | .idle | .reading _ => 0

theorem writerLeft_act {r : Recorder} {p : ℕ} {s : Recorded} (at_p : r.histograms[p]? = some s)
    (val : Int64) (call : Call) (h : Histogram) (returned : List (Call × Bool)) (x : InCall ⊕ Bool) :
    writerLeft (r.act val p call h returned x).1 (.writing (r.act val p call h returned x).2) =
      callLeft h x + 1 := by
  have here := (List.getElem?_eq_some_iff.mp at_p).1
  cases x with
  | inl t =>
    dsimp only [Recorder.act, writerLeft]
    rw [List.getElem?_set_self here]
  | inr result => rfl

section Progress

variable {c : BucketConfig} {r : Recorder} {writers : ι → Option Writer} {readers : ι → Option Reader}

omit [DecidableEq ι] in
/-- Where a writer acts there is a histogram. -/
theorem Inv.acts_on (inv : Inv c r writers readers) {i : ι} {val : Int64} {p : ℕ} {t : InCall}
    (here : writers i = some (.update val p t)) : ∃ s, r.histograms[p]? = some s := by
  rcases inv.acting i val p t here with rfl | ⟨j, flip, reads, _⟩
  · exact ⟨_, List.getElem?_eq_getElem inv.placed.active_lt⟩
  · have retired : retiredBy (readers j) = some p := by rw [reads, retiredBy]
    exact ⟨_, List.getElem?_eq_getElem (inv.placed.owned j p (ownedBy_retired retired)).1⟩

omit [DecidableEq ι] in
/-- A writer can always move. -/
theorem Inv.writer_progress (inv : Inv c r writers readers) {i : ι} {w : Writer}
    (here : writers i = some w) : ∃ r' l, r.writerStep w = some (r', l) ∧
      writerLeft r' l < writerLeft r (.writing w) := by
  cases w with
  | loadActive val call =>
    have at_active := List.getElem?_eq_getElem inv.placed.active_lt
    dsimp only [Recorder.writerStep]
    rw [at_active]
    refine ⟨_, _, rfl, ?_⟩
    rw [writerLeft_act at_active]
    exact Nat.lt_succ_of_le (Nat.succ_le_succ (callLeft_record ..))
  | update val p t =>
    obtain ⟨s, at_p⟩ := inv.acts_on here
    dsimp only [Recorder.writerStep]
    rw [at_p]
    refine ⟨_, _, rfl, ?_⟩
    rw [writerLeft_act at_p, writerLeft, at_p]
    exact Nat.succ_lt_succ (callLeft_operate ..)
  | exit val call result => exact ⟨_, _, rfl, Nat.succ_pos 0⟩

/-- The operations that a reader has left when it waits for nobody. -/
def readerLeft : Option Reader → ℕ
  | none => 0
  | some (.lock _) => 8
  | some (.loadActive _) => 7
  | some (.storeActive ..) => 6
  | some (.flip _ flip) => flipLeft (some flip) + 1
  | some (.unlock _) => 1

omit [DecidableEq ι] in
/-- The reader with the mutex can move when no writer is inside. -/
theorem Inv.locking_progress (inv : Inv c r writers readers) (left : ∀ i, writers i = none) {i : ι}
    {reading : Reader} (here : readers i = some reading) (locks : Locking (readers i)) :
    ∃ r' l, r.readerStep reading = some (r', l) ∧
      readerLeft (reader l) < readerLeft (some reading) := by
  cases reading with
  | lock p =>
    rw [here] at locks
    exact locks.elim
  | loadActive p | storeActive p old => exact ⟨_, _, rfl, Nat.lt_succ_self _⟩
  | flip old flip =>
    obtain ⟨_, _, phased⟩ := inv.holds locks
    rw [here, flipOf] at phased
    have less := phased.progress fun j => by rw [Function.comp_apply, left j, inside]
    dsimp only [Recorder.readerStep]
    cases operated : flip.operate r.phaser with
    | mk phaser next =>
      rw [operated] at less
      cases next with
      | none => exact ⟨_, _, rfl, Nat.succ_lt_succ less⟩
      | some next => exact ⟨_, _, rfl, Nat.succ_lt_succ less⟩
  | unlock old =>
    obtain ⟨s, at_old, _⟩ := inv.retired i old (by rw [here, retiredBy])
    dsimp only [Recorder.readerStep]
    rw [at_old]
    exact ⟨_, _, rfl, Nat.succ_pos 0⟩

omit [DecidableEq ι] in
/-- Some reader can move when no writer is inside: the one with the mutex, or all. -/
theorem Inv.reader_progress (inv : Inv c r writers readers) (left : ∀ i, writers i = none) {i : ι}
    (waits : readers i ≠ none) : ∃ j reading r' l, readers j = some reading ∧
      r.readerStep reading = some (r', l) ∧ readerLeft (reader l) < readerLeft (some reading) := by
  obtain ⟨holder, is_locked, locking, _⟩ := inv.locked
  cases holder with
  | some j =>
    have locks := (locking j).mpr rfl
    obtain ⟨reading, here⟩ : ∃ reading, readers j = some reading := by
      cases at_j : readers j with
      | none =>
        rw [at_j] at locks
        exact locks.elim
      | some reading => exact ⟨reading, rfl⟩
    obtain ⟨r', l, stepped, less⟩ := inv.locking_progress left here locks
    exact ⟨j, reading, r', l, here, stepped, less⟩
  | none =>
    obtain ⟨reading, here⟩ := Option.ne_none_iff_exists'.mp waits
    have unlocked : ¬ Locking (readers i) := by
      intro locks
      cases (locking i).mp locks
    rw [here] at unlocked
    cases reading with
    | lock p =>
      refine ⟨i, .lock p, { r with phaser := { r.phaser with readerMutex := true } },
        .reading (.loadActive p), here, ?_, Nat.lt_succ_self _⟩
      dsimp only [Recorder.readerStep, Phaser.hdrPhaserReaderLock]
      rw [if_neg (Bool.eq_false_iff.mp is_locked)]
    | loadActive p | storeActive p old | flip old flip | unlock old =>
      exact absurd trivial unlocked

end Progress

theorem idle_of_views {l : Thread} (unwritten : writer l = none) (unread : reader l = none) :
    l = .idle := by
  cases l with
  | idle => rfl
  | writing w => cases unwritten
  | reading reading => cases unread

theorem writing_of_view {l : Thread} {w : Writer} (writes : writer l = some w) :
    l = .writing w := by
  cases l with
  | idle | reading reading => cases writes
  | writing other => rw [Option.some.inj writes]

theorem reading_of_view {l : Thread} {reading : Reader} (reads : reader l = some reading) :
    l = .reading reading := by
  cases l with
  | idle | writing w => cases reads
  | reading other => rw [Option.some.inj reads]

/-- The entries are the calls that returned and the writers inside. -/
theorem entries_eq {h : Histogram} {s : System ι Recorder Thread}
    (reached : Reachable intervalRecorder ⟨hdrIntervalRecorderInitAll h, fun _ => .idle⟩ s) :
    s.shared.returned.length + ∑ i, recordingsIn (s.threads i) = s.shared.entries := by
  have balance := reached.balanced (fun r => r.returned.length) (fun r => r.entries) recordingsIn
    fun _ _ _ _ _ stepped => (entries_balance stepped).2
  simp only [recordingsIn, Finset.sum_const_zero] at balance
  exact balance.trans (Nat.zero_add _)

section Returns

variable {lowest highest : Int64} {figures : Int32} {h : Histogram}
  {s : System ι Recorder Thread} (created : hdrInit lowest highest figures = .ok h)
  (reached : Reachable intervalRecorder ⟨hdrIntervalRecorderInitAll h, fun _ => .idle⟩ s)
  (few : s.shared.entries < 2 ^ 63)

include created reached few

/-- A writer that runs alone returns. -/
theorem writer_returns {i : ι} {w : Writer} (here : s.threads i = .writing w) :
    ∃ next, Leads intervalRecorder (·.1 = i) s next ∧
      next.threads = Function.update s.threads i .idle ∧
      next.shared.entries = s.shared.entries := by
  have completed : ∃ next, Leads intervalRecorder (·.1 = i) s next ∧
      (next.shared.entries = s.shared.entries ∧ reader (next.threads i) = none ∧
        ∀ j, j ≠ i → next.threads j = s.threads j) ∧ writer (next.threads i) = none := by
    refine Leads.completes _ _ (fun t => writerLeft t.shared (t.threads i)) ?_
      ⟨rfl, by rw [here, reader], fun _ _ => rfl⟩
    rintro t leads ⟨entries, unread, others⟩ unfinished
    obtain ⟨w, writes⟩ := Option.ne_none_iff_exists'.mp unfinished
    have inv := inv_reachable created (reached.leads leads) (entries ▸ few)
    obtain ⟨r', l, stepped, less⟩ := inv.writer_progress (i := i) writes
    obtain ⟨_, outside⟩ := inv.writerStep (i := i) writes stepped
    have at_i := writing_of_view writes
    refine ⟨⟨r', Function.update t.threads i l⟩, Leads.single (a := .sample none) ?_ rfl,
      ⟨(writerStep_entries stepped).1.trans entries, ?_, ?_⟩, ?_⟩
    · rw [at_i]
      exact stepped
    · dsimp only
      rwa [Function.update_self]
    · intro j other
      dsimp only
      rw [Function.update_of_ne other]
      exact others j other
    · dsimp only
      rwa [Function.update_self, at_i]
  obtain ⟨next, leads, ⟨entries, unread, others⟩, unwritten⟩ := completed
  refine ⟨next, leads, ?_, entries⟩
  funext j
  by_cases mine : j = i
  · subst mine
    rw [Function.update_self]
    exact idle_of_views unwritten unread
  · rw [Function.update_of_ne mine]
    exact others j mine

/-- The writers can return, and no other thread is moved. -/
theorem writers_return : ∃ next, Leads intervalRecorder (fun e => s.threads e.1 ≠ .idle) s next ∧
    (next.shared.entries = s.shared.entries ∧ ∀ i, s.threads i = .idle → next.threads i = .idle) ∧
    ∀ i, writer (next.threads i) = none := by
  refine Leads.completes _ _ (fun t => ∑ i, recordingsIn (t.threads i)) ?_ ⟨rfl, fun _ idle => idle⟩
  rintro t leads ⟨entries, still⟩ unfinished
  obtain ⟨i, writes⟩ := not_forall.mp unfinished
  obtain ⟨w, writes⟩ := Option.ne_none_iff_exists'.mp writes
  have at_i := writing_of_view writes
  obtain ⟨next, alone, threads, same⟩ :=
    writer_returns created (reached.leads leads) (entries ▸ few) at_i
  refine ⟨next, alone.mono ?_, ⟨same.trans entries, ?_⟩, ?_⟩
  · rintro ⟨j, request⟩ rfl idle
    rw [still j idle] at at_i
    cases at_i
  · intro j idle
    rw [threads]
    by_cases mine : j = i
    · rw [mine, Function.update_self]
    · rw [Function.update_of_ne mine]
      exact still j idle
  · have sum := sum_update recordingsIn t.threads i .idle
    rw [at_i, recordingsIn, recordingsIn] at sum
    rw [threads]
    omega

/-- Then the readers can return. -/
theorem readers_return (left : ∀ i, writer (s.threads i) = none) :
    ∃ final, Leads intervalRecorder (fun e => s.threads e.1 ≠ .idle) s final ∧
      (final.shared.entries = s.shared.entries ∧ (∀ i, writer (final.threads i) = none) ∧
        ∀ i, s.threads i = .idle → final.threads i = .idle) ∧
      ∀ i, reader (final.threads i) = none := by
  refine Leads.completes _ _ (fun t => ∑ i, readerLeft (reader (t.threads i))) ?_
    ⟨rfl, left, fun _ idle => idle⟩
  rintro t leads ⟨entries, left, still⟩ unfinished
  obtain ⟨i, waits⟩ := not_forall.mp unfinished
  have inv := inv_reachable created (reached.leads leads) (entries ▸ few)
  obtain ⟨j, reading, r', l, reads, stepped, less⟩ := inv.reader_progress left (i := i) waits
  obtain ⟨_, outside⟩ := inv.readerStep reads stepped
  have at_j := reading_of_view reads
  have busy : s.threads j ≠ .idle := by
    intro idle
    rw [still j idle] at at_j
    cases at_j
  refine ⟨⟨r', Function.update t.threads j l⟩, Leads.single (a := .sample none) ?_ busy,
    ⟨(readerStep_entries stepped).1.trans entries, ?_, ?_⟩, ?_⟩
  · rw [at_j]
    exact stepped
  · intro k
    dsimp only
    by_cases mine : k = j
    · rwa [mine, Function.update_self]
    · rw [Function.update_of_ne mine]
      exact left k
  · intro k idle
    dsimp only
    rw [Function.update_of_ne fun mine : k = j => busy (mine ▸ idle)]
    exact still k idle
  · have sum := sum_update (fun l => readerLeft (reader l)) t.threads j l
    dsimp only at sum ⊢
    rw [at_j, reader] at sum
    omega

end Returns

/-- In every state reached a thread in a recording returns when it runs alone, and the threads in
a call can all return, so that every recording that began has returned. -/
theorem calls_return {lowest highest : Int64} {figures : Int32} {h : Histogram}
    (created : hdrInit lowest highest figures = .ok h) {s : System ι Recorder Thread}
    (reached : Reachable intervalRecorder ⟨hdrIntervalRecorderInitAll h, fun _ => .idle⟩ s)
    (few : s.shared.entries < 2 ^ 63) :
    (∀ i w, s.threads i = .writing w → ∃ next, Leads intervalRecorder (·.1 = i) s next ∧
      next.threads = Function.update s.threads i .idle) ∧
    ∃ final, Leads intervalRecorder (fun event => s.threads event.1 ≠ .idle) s final ∧
      (∀ i, final.threads i = .idle) ∧
      final.shared.returned.length = s.shared.entries := by
  constructor
  · intro i w here
    obtain ⟨next, leads, threads, _⟩ := writer_returns created reached few here
    exact ⟨next, leads, threads⟩
  · obtain ⟨middle, first, ⟨entries, busy⟩, left⟩ := writers_return created reached few
    have reached_middle := reached.leads first
    obtain ⟨final, second, ⟨same, unwritten, _⟩, unread⟩ :=
      readers_return created reached_middle (entries ▸ few) left
    have leads := first.trans (second.mono fun event moves idle => moves (busy event.1 idle))
    have idle : ∀ i, final.threads i = .idle := fun i => idle_of_views (unwritten i) (unread i)
    refine ⟨final, leads, idle, ?_⟩
    have counted := entries_eq (reached.leads leads)
    rw [Finset.sum_eq_zero fun i _ => by rw [idle i, recordingsIn], same, entries] at counted
    exact counted

/-- One thread is in a recording while the flip of the other one waits for it. -/
theorem flip_waits : (Library.Machine.run (interleave intervalRecorder)
    ⟨hdrIntervalRecorderInitAll tiny, fun _ : Fin 2 => .idle⟩ (relay.take 17)).any (fun r =>
      r.1.shared.entries = 2 ∧ (writer (r.1.threads one)).isSome ∧
      flipOf (reader (r.1.threads other)) = some (.getEnd false 2)) = true := by
  decide +kernel

theorem calls_return_relay : ∃ s : System (Fin 2) Recorder Thread,
    Reachable intervalRecorder ⟨hdrIntervalRecorderInitAll tiny, fun _ => .idle⟩ s ∧
    (writer (s.threads one)).isSome ∧ flipOf (reader (s.threads other)) = some (.getEnd false 2) ∧
    ∃ final, Leads intervalRecorder (fun event => s.threads event.1 ≠ .idle) s final ∧
      (∀ i, final.threads i = .idle) ∧ final.shared.returned.length = 2 := by
  obtain ⟨⟨s, outs⟩, ran, checked⟩ := (Option.any_eq_true _ _).mp flip_waits
  obtain ⟨two, inside, waits⟩ := of_decide_eq_true checked
  obtain ⟨_, returning⟩ :=
    calls_return tiny_created ⟨relay.take 17, outs, ran⟩ (by rw [two]; decide)
  rw [two] at returning
  exact ⟨s, ⟨relay.take 17, outs, ran⟩, inside, waits, returning⟩

end YcsbCloud.Guarantees.HdrIntervalRecorder
