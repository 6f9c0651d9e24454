import YcsbCloud.Source.HdrAtomic
import YcsbCloud.Source.HdrPhaser

/-!
# The recorder of `hdr_interval_recorder.c`

Threads record into the active histogram while others take it away as a sample and leave a
recycled one in its place. A step is one sequentially consistent operation of a thread, or
work on a histogram that only this thread has.
-/
namespace YcsbCloud.Source.HdrIntervalRecorder
open HdrHistogram HdrAtomic HdrPhaser Library.Interleaving

/-- A sample as it was returned, and the calls that had returned when another histogram took
its place. -/
structure Sample where
  recorded : Recorded
  replaced : List (Call × Bool)

/-- `struct hdr_interval_recorder` and the histograms, each at its pointer, with what the
callers see: the samples they may still hand back, all samples, and the calls that returned,
now and when the active histogram was last replaced. -/
structure Recorder where
  histograms : List Recorded
  active : ℕ
  phaser : Phaser
  held : List (ℕ × Recorded)
  samples : List Sample
  returned : List (Call × Bool)
  replaced : List (Call × Bool)
  entries : ℕ

/-- What a thread calls next: a recording, or `hdr_interval_recorder_sample_and_recycle`. -/
inductive Request where
  | record (call : Call)
  | sample (histogramToRecycle : Option ℕ)
  deriving DecidableEq, Repr

/-- A thread in `hdr_interval_recorder_update`. -/
inductive Writer where
  | loadActive (val : Int64) (call : Call)
  | update (val : Int64) (active : ℕ) (t : InCall)
  | exit (val : Int64) (call : Call) (result : Bool)
  deriving DecidableEq, Repr

/-- A thread in `hdr_interval_recorder_sample_and_recycle`. -/
inductive Reader where
  | lock (histogramToRecycle : ℕ)
  | loadActive (histogramToRecycle : ℕ)
  | storeActive (histogramToRecycle oldActive : ℕ)
  | flip (oldActive : ℕ) (flip : Flip)
  | unlock (oldActive : ℕ)
  deriving DecidableEq, Repr

inductive Thread where
  | idle
  | writing (w : Writer)
  | reading (r : Reader)
  deriving DecidableEq, Repr

/-- `hdr_interval_recorder_init_all`, for a histogram that `hdr_init` returned. -/
def hdrIntervalRecorderInitAll (h : Histogram) : Recorder where
  histograms := [⟨h, []⟩]
  active := 0
  phaser := .hdrWriterReaderPhaserInit
  held := []
  samples := []
  returned := []
  replaced := []
  entries := 0

namespace Recorder

variable (r : Recorder)

/-- `hdr_interval_recorder_update` up to the load of the active histogram. -/
def enter (call : Call) : Recorder × Writer :=
  ({ r with phaser := r.phaser.hdrPhaserWriterEnter.1, entries := r.entries + 1 },
    .loadActive r.phaser.hdrPhaserWriterEnter.2 call)

/-- After an operation on a histogram the update action goes on or is over. -/
def act (val : Int64) (active : ℕ) (call : Call) (h : Histogram) (returned : List (Call × Bool)) :
    InCall ⊕ Bool → Recorder × Writer
  | .inl t => ({ r with histograms := r.histograms.set active ⟨h, returned⟩ }, .update val active t)
  | .inr result =>
    ({ r with histograms := r.histograms.set active ⟨h, returned ++ [(call, result)]⟩ },
      .exit val call result)

/-- A step of `hdr_interval_recorder_update`. A thread that reads through a pointer at which
there is no histogram is stuck. -/
def writerStep : Writer → Option (Recorder × Thread)
  | .loadActive val call =>
    match r.histograms[r.active]? with
    | none => none
    | some ⟨h, returned⟩ =>
      let (next, w) := r.act val r.active call h returned (call.record h.config call.value)
      some (next, .writing w)
  | .update val active t =>
    match r.histograms[active]? with
    | none => none
    | some ⟨h, returned⟩ =>
      let (next, w) := r.act val active t.call (t.operate h).1 returned (t.operate h).2
      some (next, .writing w)
  | .exit val call result =>
    some ({ r with
      phaser := r.phaser.hdrPhaserWriterExit val
      returned := r.returned ++ [(call, result)] }, .idle)

/-- `hdr_interval_recorder_sample_and_recycle` up to the lock. The configuration of the active
histogram is never written, so its reads are as one. A caller has what it hands back, and a
`hdr_init` that fails is no step. -/
def recycle : Option ℕ → Option (Recorder × Reader)
  | none =>
    match r.histograms[r.active]? with
    | none => none
    | some ⟨active, _⟩ =>
      match hdrInit (.ofNat active.config.lowestDiscernibleValue)
          (.ofNat active.config.highestTrackableValue) (.ofNat active.config.significantFigures) with
      | .error _ => none
      | .ok h => some ({ r with histograms := r.histograms ++ [⟨h, []⟩] }, .lock r.histograms.length)
  | some histogramToRecycle =>
    if histogramToRecycle ∈ r.held.map Prod.fst then
      match r.histograms[histogramToRecycle]? with
      | none => none
      | some ⟨h, _⟩ =>
        some ({ r with
          histograms := r.histograms.set histogramToRecycle ⟨h.hdrReset, []⟩
          held := r.held.filter (·.1 ≠ histogramToRecycle) }, .lock histogramToRecycle)
    else none

/-- A step of `hdr_interval_recorder_sample_and_recycle` from the lock on. -/
def readerStep : Reader → Option (Recorder × Thread)
  | .lock histogramToRecycle =>
    match r.phaser.hdrPhaserReaderLock with
    | none => none
    | some phaser => some ({ r with phaser := phaser }, .reading (.loadActive histogramToRecycle))
  | .loadActive histogramToRecycle => some (r, .reading (.storeActive histogramToRecycle r.active))
  | .storeActive histogramToRecycle oldActive =>
    some ({ r with active := histogramToRecycle, replaced := r.returned },
      .reading (.flip oldActive .getStart))
  | .flip oldActive flip =>
    match flip.operate r.phaser with
    | (phaser, some flip) => some ({ r with phaser := phaser }, .reading (.flip oldActive flip))
    | (phaser, none) => some ({ r with phaser := phaser }, .reading (.unlock oldActive))
  | .unlock oldActive =>
    match r.histograms[oldActive]? with
    | none => none
    | some sample =>
      some ({ r with
        phaser := r.phaser.hdrPhaserReaderUnlock
        held := r.held ++ [(oldActive, sample)]
        samples := r.samples ++ [⟨sample, r.replaced⟩] }, .idle)

end Recorder

/-- A step of a thread that makes one request after the other. -/
def intervalRecorder : Local Recorder Thread Request := fun request r l =>
  match l with
  | .idle =>
    match request with
    | .record call => some ((r.enter call).1, .writing (r.enter call).2)
    | .sample histogramToRecycle =>
      match r.recycle histogramToRecycle with
      | none => none
      | some (next, reader) => some (next, .reading reader)
  | .writing w => r.writerStep w
  | .reading reader => r.readerStep reader

end YcsbCloud.Source.HdrIntervalRecorder
