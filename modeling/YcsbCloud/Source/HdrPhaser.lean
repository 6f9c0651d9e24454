import Mathlib.Data.Nat.Notation

/-!
# The phaser of `hdr_writer_reader_phaser.c`

Writers enter and leave without waiting; a reader flips the phase and waits until the writers
of the phase before have left. Every function but the last is one sequentially consistent
operation of `hdr_atomic.h`; `hdr_phaser_flip_phase` is the operations of `Flip` in turn, in
which sleeping is no step.
-/
namespace YcsbCloud.Source.HdrPhaser

/-- `struct hdr_writer_reader_phaser`, with whether its mutex is locked. -/
structure Phaser where
  startEpoch : Int64
  evenEndEpoch : Int64
  oddEndEpoch : Int64
  readerMutex : Bool
  deriving DecidableEq, Repr

namespace Phaser

/-- `hdr_writer_reader_phaser_init`, when there is memory. -/
def hdrWriterReaderPhaserInit : Phaser where
  startEpoch := 0
  evenEndEpoch := 0
  oddEndEpoch := Int64.minValue
  readerMutex := false

variable (p : Phaser)

/-- The critical value is the epoch after the addition. -/
def hdrPhaserWriterEnter : Phaser × Int64 :=
  ({ p with startEpoch := p.startEpoch + 1 }, p.startEpoch + 1)

def hdrPhaserWriterExit (criticalValueAtEnter : Int64) : Phaser :=
  if criticalValueAtEnter < 0 then { p with oddEndEpoch := p.oddEndEpoch + 1 }
  else { p with evenEndEpoch := p.evenEndEpoch + 1 }

/-- There is no step while another reader has the mutex. -/
def hdrPhaserReaderLock : Option Phaser :=
  if p.readerMutex then none else some { p with readerMutex := true }

def hdrPhaserReaderUnlock : Phaser := { p with readerMutex := false }

end Phaser

/-- The next operation of `hdr_phaser_flip_phase`. -/
inductive Flip where
  | getStart
  | clearEnd (nextPhaseIsEven : Bool)
  | resetStart (nextPhaseIsEven : Bool) (initialStartValue : Int64)
  | getEnd (nextPhaseIsEven : Bool) (startValueAtFlip : Int64)
  deriving DecidableEq, Repr

/-- An operation of `hdr_phaser_flip_phase` with the one after it. There is none when the
phase before has caught up. -/
def Flip.operate (p : Phaser) : Flip → Phaser × Option Flip
  | getStart => (p, some (clearEnd (p.startEpoch < 0)))
  | clearEnd nextPhaseIsEven =>
    if nextPhaseIsEven then ({ p with evenEndEpoch := 0 }, some (resetStart nextPhaseIsEven 0))
    else ({ p with oddEndEpoch := Int64.minValue },
      some (resetStart nextPhaseIsEven Int64.minValue))
  | resetStart nextPhaseIsEven initialStartValue =>
    ({ p with startEpoch := initialStartValue }, some (getEnd nextPhaseIsEven p.startEpoch))
  | getEnd nextPhaseIsEven startValueAtFlip =>
    let endEpoch := if nextPhaseIsEven then p.oddEndEpoch else p.evenEndEpoch
    (p, if endEpoch = startValueAtFlip then none else some (getEnd nextPhaseIsEven startValueAtFlip))

end YcsbCloud.Source.HdrPhaser
