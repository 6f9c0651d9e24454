import YcsbCloud.Source.HdrHistogramLog

/-!
# The entries of a log

`hdr_log_read_entry` reads a file octet by octet. A file is the octets that are left of it. The
seconds and nanoseconds of a timestamp are read into a `long`; digits that overflow it leave the
result undefined.
-/
namespace YcsbCloud.Source.HdrLogReader
open HdrHistogram HdrHistogramLog

def EOF : ℤ := -1

/-- `hdr_timespec`. -/
structure Timespec where
  tvSec : ℕ
  tvNsec : ℕ
  deriving DecidableEq, Repr

/-- `struct hdr_log_entry`, with the buffer for the tag, if there is one. -/
structure LogEntry where
  startTimestamp : Timespec
  interval : Timespec
  max : Timespec
  tag : Option (List UInt8)
  deriving DecidableEq, Repr

def readAhead : List UInt8 → List UInt8 → Bool × List UInt8
  | [], file => (true, file)
  | _ :: _, [] => (false, [])
  | p :: expected, c :: file => if p = c then readAhead expected file else (false, file)

/-- `isdigit`, as the reader tests it. -/
def isDigit (c : UInt8) : Bool := decide (48 ≤ c ∧ c ≤ 57)

/-- The loop of `read_ahead_timestamp`. -/
def timestampLoop (expectedTerminator : UInt8) (isSeconds : Bool) (sec nsec nsecMultiplier : ℕ) :
    List UInt8 → Except Failure (Timespec × List UInt8)
  | [] => .error (.error 0)
  | c :: file =>
    if expectedTerminator = c then
      if INT64_MAX < nsec * nsecMultiplier then .error .undefined
      else .ok (⟨sec, nsec * nsecMultiplier⟩, file)
    else if 46 = c then timestampLoop expectedTerminator false sec nsec nsecMultiplier file
    else if isDigit c then
      if isSeconds then
        if INT64_MAX < sec * 10 + (c.toNat - 48) then .error .undefined
        else timestampLoop expectedTerminator isSeconds (sec * 10 + (c.toNat - 48)) nsec
          nsecMultiplier file
      else if INT64_MAX < nsec * 10 + (c.toNat - 48) then .error .undefined
      else timestampLoop expectedTerminator isSeconds sec (nsec * 10 + (c.toNat - 48))
        (nsecMultiplier / 10) file
    else .error (.error 0)

def readAheadTimestamp (expectedTerminator : UInt8) (file : List UInt8) :
    Except Failure (Timespec × List UInt8) :=
  timestampLoop expectedTerminator true 0 0 1000000000 file

/-- The state `TAG`, which puts what fits of the tag in the buffer. -/
def stateTag (tag : Option (List UInt8)) (tagOffset : ℕ) :
    List UInt8 → Except ℤ (Option (List UInt8) × List UInt8)
  | [] => .error (-EINVAL)
  | c :: file =>
    if 44 = c then .ok (tag.map (·.set tagOffset 0), file)
    else if 13 = c ∨ 10 = c then .error (-EINVAL)
    else if tagOffset < (tag.getD []).length then
      stateTag (tag.map (·.set tagOffset c)) (tagOffset + 1) file
    else stateTag tag tagOffset file

/-- The state `INIT`, with `TAG` after it if there is a tag. -/
def stateInit (tag : Option (List UInt8)) :
    List UInt8 → Except ℤ (Option (List UInt8) × List UInt8)
  | [] => .error EOF
  | c :: file =>
    if 84 = c then
      match readAhead [97, 103, 61] file with
      | (true, file) => stateTag tag 0 file
      | (false, _) => .error (-EINVAL)
    else if isDigit c then .ok (tag, c :: file)
    else if 13 = c ∨ 10 = c then stateInit tag file
    else .error (-EINVAL)

/-- Each of the states `BEGIN_TIMESTAMP`, `INTERVAL` and `MAX`. -/
def stateTimestamp (file : List UInt8) : Except Failure (Timespec × List UInt8) :=
  match readAheadTimestamp 44 file with
  | .error .undefined => .error .undefined
  | .error (.error _) => .error (.error (-EINVAL))
  | .ok read => .ok read

def stateTimestamps (tag : Option (List UInt8)) (file : List UInt8) :
    Except Failure (LogEntry × List UInt8) :=
  match stateTimestamp file with
  | .error failure => .error failure
  | .ok (startTimestamp, file) =>
    match stateTimestamp file with
    | .error failure => .error failure
    | .ok (interval, file) =>
      match stateTimestamp file with
      | .error failure => .error failure
      | .ok (max, file) => .ok (⟨startTimestamp, interval, max, tag⟩, file)

/-- The state `HISTOGRAM`, which the end of the line or of the file ends. -/
def stateHistogram (base64Histogram : List UInt8) : List UInt8 → List UInt8 × List UInt8
  | [] => (base64Histogram, [])
  | c :: file =>
    if c ≠ 13 ∧ c ≠ 10 then stateHistogram (base64Histogram ++ [c]) file
    else (base64Histogram, file)

/-- The loop of `hdr_log_read_entry`: the entry, the text of its histogram, and what is left of
the file. -/
def parseEntry (tag : Option (List UInt8)) (file : List UInt8) :
    Except Failure (LogEntry × List UInt8 × List UInt8) :=
  match stateInit tag file with
  | .error result => .error (.error result)
  | .ok (tag, file) =>
    match stateTimestamps tag file with
    | .error failure => .error failure
    | .ok (entry, file) => .ok (entry, stateHistogram [] file)

end YcsbCloud.Source.HdrLogReader
