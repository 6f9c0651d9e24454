import YcsbCloud.Guarantees.HdrAtomic
import YcsbCloud.Guarantees.HdrPhaser
import YcsbCloud.Library.Places
import YcsbCloud.Source.HdrIntervalRecorder

/-!
# Who works on which histogram

Each histogram is active, held by the callers as a sample, or owned by one reader. Writers
work on the active one, or on the one that was active before a flip, which the reader of that
flip returns only after they have left.
-/
namespace YcsbCloud.Guarantees.HdrIntervalRecorder
open Library.LogLinear Library.OrderStatistics Library.Interleaving Source.HdrHistogram
  Source.HdrAtomic Source.HdrPhaser Source.HdrIntervalRecorder HdrBuckets HdrRecording
  HdrPercentiles HdrAtomic HdrPhaser Library.Places

variable {ι : Type*} [DecidableEq ι] [Fintype ι]

def writer : Thread → Option Writer
  | .writing w => some w
  | .idle | .reading _ => none

def reader : Thread → Option Reader
  | .reading r => some r
  | .idle | .writing _ => none

/-- The call that a writer makes on the histogram at a pointer. -/
def callAt (p : ℕ) : Option Writer → Option InCall
  | some (.update _ active t) => if active = p then some t else none
  | none | some (.loadActive ..) | some (.exit ..) => none

/-- The critical value of a writer inside. -/
def inside : Option Writer → Option Int64
  | none => none
  | some (.loadActive val _) | some (.update val _ _) | some (.exit val _ _) => some val

/-- What the call of a writer has put down and not returned yet. -/
def leaving : Option Writer → List (Call × Bool)
  | some (.exit _ call result) => [(call, result)]
  | none | some (.loadActive ..) | some (.update ..) => []

/-- The recycled histogram of a reader that has not stored it yet. -/
def unusedBy : Option Reader → Option ℕ
  | some (.lock p) | some (.loadActive p) | some (.storeActive p _) => some p
  | none | some (.flip ..) | some (.unlock _) => none

/-- The histogram that a reader took away and has not returned yet. -/
def retiredBy : Option Reader → Option ℕ
  | some (.flip oldActive _) | some (.unlock oldActive) => some oldActive
  | none | some (.lock _) | some (.loadActive _) | some (.storeActive ..) => none

/-- The histogram that a reader owns. -/
def ownedBy (reader : Option Reader) : Option ℕ := (unusedBy reader).or (retiredBy reader)

/-- The reader has the mutex. -/
def Locking : Option Reader → Prop
  | none | some (.lock _) => False
  | some (.loadActive _) | some (.storeActive ..) | some (.flip ..) | some (.unlock _) => True

def flipOf : Option Reader → Option Flip
  | some (.flip _ flip) => some flip
  | none | some (.lock _) | some (.loadActive _) | some (.storeActive ..) | some (.unlock _) => none

theorem ownedBy_unused {reader : Option Reader} {p : ℕ} (unused : unusedBy reader = some p) :
    ownedBy reader = some p := by
  rw [ownedBy, unused, Option.some_or]

theorem ownedBy_retired {reader : Option Reader} {p : ℕ} (retired : retiredBy reader = some p) :
    ownedBy reader = some p := by
  cases reader with
  | none => cases retired
  | some reader =>
    cases reader with
    | lock q | loadActive q | storeActive q old => cases retired
    | flip old flip | unlock old => exact retired

theorem retiredBy_unused {reader : Option Reader} {p : ℕ} (unused : unusedBy reader = some p) :
    retiredBy reader = none := by
  cases reader with
  | none => rfl
  | some reader =>
    cases reader with
    | lock q | loadActive q | storeActive q old => rfl
    | flip old flip | unlock old => cases unused

theorem locking_retired {reader : Option Reader} {p : ℕ} (retired : retiredBy reader = some p) :
    Locking reader := by
  cases reader with
  | none => cases retired
  | some reader =>
    cases reader with
    | lock q | loadActive q | storeActive q old => cases retired
    | flip old flip | unlock old => trivial

/-- A sample holds what its calls count. -/
structure Sampled (c : BucketConfig) (sample : Recorded) : Prop where
  config : sample.histogram.config = c
  flags : ∀ entry ∈ sample.returned, entry.2 = decide (Tracked c entry.1.value)
  holds : Holds sample.histogram (slotsOf c (loggedValues c sample.returned))

/-- The logs of histograms. -/
def logs (histograms : List Recorded) : List (Call × Bool) := histograms.flatMap Recorded.returned

/-- The logs of samples. -/
def sampleLogs (samples : List Sample) : List (Call × Bool) :=
  samples.flatMap fun sample => sample.recorded.returned

/-- The state of the recorder, seen with what its threads do. -/
structure Inv (c : BucketConfig) (r : Recorder) (writers : ι → Option Writer)
    (readers : ι → Option Reader) : Prop where
  locked : ∃ holder : Option ι, r.phaser.readerMutex = holder.isSome ∧
    (∀ i, Locking (readers i) ↔ holder = some i) ∧
    Phased r.phaser (inside ∘ writers) (holder.bind (flipOf ∘ readers)) r.entries
  placed : Placed r.histograms.length r.active (r.held.map Prod.fst) (ownedBy ∘ readers)
  stored : ∀ i p oldActive, readers i = some (.storeActive p oldActive) → oldActive = r.active
  acting : ∀ i val p t, writers i = some (.update val p t) →
    p = r.active ∨ ∃ j flip, readers j = some (.flip p flip) ∧ Behind val flip
  accounts : ∀ p s, r.histograms[p]? = some s → Accounts c s (callAt p ∘ writers)
  kept : ∀ e ∈ r.held, r.histograms[e.1]? = some e.2
  fresh : ∀ i p, unusedBy (readers i) = some p → ∃ s, r.histograms[p]? = some s ∧ s.returned = []
  retired : ∀ i p, retiredBy (readers i) = some p → ∃ s, r.histograms[p]? = some s ∧
    ∀ entry, r.replaced.count entry ≤ (sampleLogs r.samples ++ s.returned).count entry
  taken : ∀ e ∈ r.held, e.2 ∈ r.samples.map Sample.recorded
  samples : ∀ sample ∈ r.samples, Sampled c sample.recorded
  ordered : ∀ k sample, r.samples[k]? = some sample → ∀ entry,
    sample.replaced.count entry ≤ (sampleLogs (r.samples.take (k + 1))).count entry
  conserved : ∀ entry, (sampleLogs r.samples).count entry + (logs r.histograms).count entry =
    r.returned.count entry + ∑ i, (leaving (writers i)).count entry +
      (logs (r.held.map Prod.snd)).count entry

omit [Fintype ι] in
/-- A move that a view does not see. -/
theorem view_update {α β : Type*} (view : α → β) (threads : ι → α) {i : ι} {next : α}
    (same : view next = view (threads i)) (j : ι) :
    view (Function.update threads i next j) = view (threads j) := by
  by_cases mine : j = i
  · subst mine
    rw [Function.update_self, same]
  · rw [Function.update_of_ne mine]

theorem logs_set {histograms : List Recorded} {p : ℕ} {s : Recorded} (here : histograms[p]? = some s)
    (s' : Recorded) (entry : Call × Bool) :
    (logs (histograms.set p s')).count entry + s.returned.count entry =
      (logs histograms).count entry + s'.returned.count entry := by
  induction histograms generalizing p with
  | nil => cases here
  | cons first rest ih =>
    cases p with
    | zero =>
      cases here
      simp only [logs, List.set_cons_zero, List.flatMap_cons, List.count_append]
      omega
    | succ p =>
      have same := ih here
      simp only [logs, List.set_cons_succ, List.flatMap_cons, List.count_append] at same ⊢
      omega

theorem logs_append (first second : List Recorded) (entry : Call × Bool) :
    (logs (first ++ second)).count entry = (logs first).count entry + (logs second).count entry := by
  rw [logs, List.flatMap_append, List.count_append]
  rfl

theorem logs_singleton (s : Recorded) : logs [s] = s.returned := by
  rw [logs, List.flatMap_cons, List.flatMap_nil, List.append_nil]

theorem sampleLogs_append (samples : List Sample) (sample : Sample) :
    sampleLogs (samples ++ [sample]) = sampleLogs samples ++ sample.recorded.returned := by
  rw [sampleLogs, List.flatMap_append, List.flatMap_cons, List.flatMap_nil, List.append_nil]
  rfl

/-- What is held apart from one sample. -/
theorem held_perm {held : List (ℕ × Recorded)} (nodup : (held.map Prod.fst).Nodup) {p : ℕ}
    {s : Recorded} (member : (p, s) ∈ held) : held.Perm ((p, s) :: held.filter (·.1 ≠ p)) := by
  induction held with
  | nil => cases member
  | cons e rest ih =>
    rw [List.map_cons, List.nodup_cons] at nodup
    rcases List.mem_cons.mp member with rfl | later
    · have others : rest.filter (·.1 ≠ p) = rest := by
        rw [List.filter_eq_self]
        intro other present
        refine decide_eq_true ?_
        rintro rfl
        exact nodup.1 (List.mem_map.mpr ⟨other, present, rfl⟩)
      rw [List.filter_cons_of_neg (by simp), others]
    · have other : e.1 ≠ p := by
        intro same
        rw [same] at nodup
        exact nodup.1 (List.mem_map.mpr ⟨(p, s), later, rfl⟩)
      rw [List.filter_cons_of_pos (by simpa using other)]
      exact ((ih nodup.2 later).cons e).trans (List.Perm.swap ..)

theorem logs_held {held : List (ℕ × Recorded)} (nodup : (held.map Prod.fst).Nodup) {p : ℕ}
    {s : Recorded} (member : (p, s) ∈ held) (entry : Call × Bool) :
    (logs (held.map Prod.snd)).count entry =
      s.returned.count entry + (logs ((held.filter (·.1 ≠ p)).map Prod.snd)).count entry := by
  have parted := (held_perm nodup member).map Prod.snd
  rw [logs, logs, (parted.flatMap_right Recorded.returned).count_eq entry, List.map_cons,
    List.flatMap_cons, List.count_append]

omit [Fintype ι] in
theorem callAt_update (p : ℕ) (writers : ι → Option Writer) (i : ι) (next : Option Writer) :
    callAt p ∘ Function.update writers i next =
      Function.update (callAt p ∘ writers) i (callAt p next) := Function.comp_update ..

/-- What a move of one writer has to keep. Only the active histogram and one that a flip takes
away may change, and their logs only grow. -/
theorem Inv.wrote {c : BucketConfig} {r r' : Recorder} {writers : ι → Option Writer}
    {readers : ι → Option Reader} (inv : Inv c r writers readers) {i : ι} {now next : Option Writer}
    (here : writers i = now) (active : r'.active = r.active) (held : r'.held = r.held)
    (samples : r'.samples = r.samples) (replaced : r'.replaced = r.replaced)
    (length : r'.histograms.length = r.histograms.length)
    (mutex : r'.phaser.readerMutex = r.phaser.readerMutex)
    (phased : ∀ flip, Phased r.phaser (inside ∘ writers) flip r.entries →
      Phased r'.phaser (Function.update (inside ∘ writers) i (inside next)) flip r'.entries)
    (acting : ∀ val p t, next = some (.update val p t) →
      p = r.active ∨ ∃ j flip, readers j = some (.flip p flip) ∧ Behind val flip)
    (accounts : ∀ p s, r'.histograms[p]? = some s →
      Accounts c s (Function.update (callAt p ∘ writers) i (callAt p next)))
    (others : ∀ p s, r.histograms[p]? = some s → p ≠ r.active →
      (∀ j, retiredBy (readers j) ≠ some p) → r'.histograms[p]? = some s)
    (grown : ∀ (p : ℕ) (s : Recorded), r.histograms[p]? = some s →
      ∃ s' : Recorded, r'.histograms[p]? = some s' ∧ s.returned.Sublist s'.returned)
    (conserved : ∀ entry, (logs r'.histograms).count entry + r.returned.count entry +
      (leaving now).count entry =
        (logs r.histograms).count entry + r'.returned.count entry + (leaving next).count entry) :
    Inv c r' (Function.update writers i next) readers := by
  obtain ⟨holder, is_locked, locking, was_phased⟩ := inv.locked
  have placed := inv.placed
  refine {
    locked := ⟨holder, mutex.trans is_locked, locking, ?_⟩
    placed := by rw [length, active, held]; exact placed
    stored := by rw [active]; exact inv.stored
    acting := ?_
    accounts := ?_
    kept := ?_
    fresh := ?_
    retired := ?_
    taken := by rw [held, samples]; exact inv.taken
    samples := by rw [samples]; exact inv.samples
    ordered := ?_
    conserved := ?_ }
  · rw [Function.comp_update]
    exact phased _ was_phased
  · intro j val p t at_j
    rw [active]
    by_cases mine : j = i
    · subst mine
      rw [Function.update_self] at at_j
      exact acting val p t at_j
    · rw [Function.update_of_ne mine] at at_j
      exact inv.acting j val p t at_j
  · intro p s at_p
    rw [callAt_update]
    exact accounts p s at_p
  · intro e member
    rw [held] at member
    have key := List.mem_map_of_mem (f := Prod.fst) member
    refine others e.1 e.2 (inv.kept e member) ?_ ?_
    · intro same
      rw [same] at key
      exact placed.active_free key
    · intro j retired
      exact (placed.owned j e.1 (ownedBy_retired retired)).2.2 key
  · intro j p unused
    obtain ⟨s, at_p, empty⟩ := inv.fresh j p unused
    have owned := ownedBy_unused unused
    refine ⟨s, others p s at_p (placed.owned j p owned).2.1 ?_, empty⟩
    intro k retired
    obtain rfl := placed.once j k p owned (ownedBy_retired retired)
    rw [retiredBy_unused unused] at retired
    cases retired
  · intro j p retired
    obtain ⟨s, at_p, before⟩ := inv.retired j p retired
    obtain ⟨s', at_p', longer⟩ := grown p s at_p
    refine ⟨s', at_p', fun entry => ?_⟩
    rw [replaced, samples]
    exact Nat.le_trans (before entry) (((List.Sublist.refl _).append longer).count_le entry)
  · rw [samples]
    exact inv.ordered
  · intro entry
    have sum := sum_update (fun w => (leaving w).count entry) writers i next
    have before := inv.conserved entry
    have moved := conserved entry
    rw [here] at sum
    rw [samples, held]
    omega

/-- A writer enters. -/
theorem Inv.enter {c : BucketConfig} {r : Recorder} {writers : ι → Option Writer}
    {readers : ι → Option Reader} (inv : Inv c r writers readers) {i : ι}
    (free : writers i = none) (call : Call) (few : r.entries + 1 < 2 ^ 63) :
    Inv c (r.enter call).1 (Function.update writers i (some (r.enter call).2)) readers := by
  refine inv.wrote free rfl rfl rfl rfl rfl rfl ?_ (fun _ _ _ => nofun) ?_
    (fun _ _ at_p _ _ => at_p) (fun _ s at_p => ⟨s, at_p, List.Sublist.refl _⟩) ?_
  · intro flip phased
    exact phased.enter (by rw [Function.comp_apply, free]; rfl) few
  · intro p s at_p
    have idle : (callAt p ∘ writers) i = none := by rw [Function.comp_apply, free, callAt]
    rw [Recorder.enter, callAt, ← idle, Function.update_eq_self]
    exact inv.accounts p s at_p
  · intro entry
    rfl

/-- A writer leaves. -/
theorem Inv.exit {c : BucketConfig} {r : Recorder} {writers : ι → Option Writer}
    {readers : ι → Option Reader} (inv : Inv c r writers readers) {i : ι} {val : Int64}
    {call : Call} {result : Bool} (here : writers i = some (.exit val call result)) :
    Inv c { r with
      phaser := r.phaser.hdrPhaserWriterExit val
      returned := r.returned ++ [(call, result)] } (Function.update writers i none) readers := by
  refine inv.wrote here rfl rfl rfl rfl rfl ?_ ?_ (fun _ _ _ => nofun) ?_
    (fun _ _ at_p _ _ => at_p) (fun _ s at_p => ⟨s, at_p, List.Sublist.refl _⟩) ?_
  · dsimp only [Phaser.hdrPhaserWriterExit]
    split <;> rfl
  · intro flip phased
    exact phased.exit (by rw [Function.comp_apply, here]; rfl)
  · intro p s at_p
    have idle : (callAt p ∘ writers) i = none := by rw [Function.comp_apply, here, callAt]
    rw [callAt, ← idle, Function.update_eq_self]
    exact inv.accounts p s at_p
  · intro entry
    dsimp only [leaving]
    rw [List.count_append, List.count_nil]
    omega

/-- After an operation the histogram and the writer are those of a thread that records into
this histogram alone. -/
theorem act_spec (r : Recorder) (val : Int64) (p : ℕ) (call : Call) (h : Histogram)
    (returned : List (Call × Bool)) (x : InCall ⊕ Bool) :
    ∃ w, r.act val p call h returned x =
        ({ r with histograms := r.histograms.set p (Recorded.settle call h returned x).1 }, w) ∧
      callAt p (some w) = (Recorded.settle call h returned x).2 ∧
      (∀ q, q ≠ p → callAt q (some w) = none) ∧ inside (some w) = some val ∧
      (Recorded.settle call h returned x).1.returned = returned ++ leaving (some w) ∧
      ∀ val' q t, w = .update val' q t → val' = val ∧ q = p := by
  cases x with
  | inl t =>
    refine ⟨_, rfl, if_pos rfl, fun q other => if_neg other.symm, rfl, ?_, ?_⟩
    · exact (List.append_nil returned).symm
    · rintro val' q t ⟨⟩
      exact ⟨rfl, rfl⟩
  | inr result => exact ⟨_, rfl, rfl, fun _ _ => rfl, rfl, rfl, fun _ _ _ => nofun⟩

/-- A writer makes an operation on the histogram at the pointer it loaded. -/
theorem Inv.act {c : BucketConfig} {r : Recorder} {writers : ι → Option Writer}
    {readers : ι → Option Reader} (inv : Inv c r writers readers) {i : ι} {now : Option Writer}
    (here : writers i = now) {val : Int64} (entered : inside now = some val)
    (nothing : leaving now = []) {p : ℕ} (elsewhere : ∀ q, q ≠ p → callAt q now = none)
    (allowed : p = r.active ∨ ∃ j flip, readers j = some (.flip p flip) ∧ Behind val flip)
    {s : Recorded} (at_p : r.histograms[p]? = some s) (call : Call) (h : Histogram) (x : InCall ⊕ Bool)
    (accounts : Accounts c (Recorded.settle call h s.returned x).1
      (Function.update (callAt p ∘ writers) i (Recorded.settle call h s.returned x).2)) :
    Inv c (r.act val p call h s.returned x).1
      (Function.update writers i (some (r.act val p call h s.returned x).2)) readers := by
  obtain ⟨w, acted, at_call, others, still, grown, update⟩ :=
    act_spec r val p call h s.returned x
  have here_p := (List.getElem?_eq_some_iff.mp at_p).1
  rw [acted]
  refine inv.wrote here rfl rfl rfl rfl List.length_set rfl ?_ ?_ ?_ ?_ ?_ ?_
  · intro flip phased
    have same : (inside ∘ writers) i = some val := by rw [Function.comp_apply, here, entered]
    rw [still, ← same, Function.update_eq_self]
    exact phased
  · intro val' q t is_update
    obtain ⟨rfl, rfl⟩ := update val' q t (Option.some.inj is_update)
    exact allowed
  · intro q s' at_q
    by_cases mine : q = p
    · subst mine
      rw [List.getElem?_set_self here_p] at at_q
      cases at_q
      rw [at_call]
      exact accounts
    · rw [List.getElem?_set_ne (Ne.symm mine)] at at_q
      have idle : (callAt q ∘ writers) i = none := by
        rw [Function.comp_apply, here, elsewhere q mine]
      rw [others q mine, ← idle, Function.update_eq_self]
      exact inv.accounts q s' at_q
  · intro q s' at_q inactive unretired
    refine (List.getElem?_set_ne ?_).trans at_q
    rintro rfl
    rcases allowed with same | ⟨j, flip, reads, _⟩
    · exact inactive same
    · exact unretired j (by rw [reads, retiredBy])
  · intro q s' at_q
    by_cases mine : q = p
    · subst mine
      rw [at_p] at at_q
      cases at_q
      refine ⟨_, List.getElem?_set_self here_p, ?_⟩
      rw [grown]
      exact List.sublist_append_left ..
    · exact ⟨s', (List.getElem?_set_ne (Ne.symm mine)).trans at_q, List.Sublist.refl _⟩
  · intro entry
    have moved := logs_set at_p (Recorded.settle call h s.returned x).1 entry
    rw [grown, List.count_append] at moved
    rw [nothing, List.count_nil]
    dsimp only
    omega

theorem Inv.writerStep {c : BucketConfig} {r r' : Recorder} {writers : ι → Option Writer}
    {readers : ι → Option Reader} (inv : Inv c r writers readers) {i : ι} {w : Writer}
    (here : writers i = some w) {l : Thread} (stepped : r.writerStep w = some (r', l)) :
    Inv c r' (Function.update writers i (writer l)) readers ∧ reader l = none := by
  cases w with
  | loadActive val call =>
    dsimp only [Recorder.writerStep] at stepped
    split at stepped
    · cases stepped
    next h returned at_active =>
      cases stepped
      have idle : (callAt r.active ∘ writers) i = none := by
        rw [Function.comp_apply, here, callAt]
      exact ⟨inv.act here rfl rfl (fun _ _ => rfl) (.inl rfl) at_active call h _
        ((inv.accounts _ _ at_active).begin idle call), rfl⟩
  | update val active t =>
    dsimp only [Recorder.writerStep] at stepped
    split at stepped
    · cases stepped
    next h returned at_p =>
      cases stepped
      have calls : (callAt active ∘ writers) i = some t := by
        rw [Function.comp_apply, here, callAt, if_pos rfl]
      exact ⟨inv.act here rfl rfl (fun _ other => if_neg other.symm) (inv.acting i val active t here)
        at_p t.call _ _ ((inv.accounts _ _ at_p).operate calls), rfl⟩
  | exit val call result =>
    cases stepped
    exact ⟨inv.exit here, rfl⟩

end YcsbCloud.Guarantees.HdrIntervalRecorder
