import YcsbCloud.Library.Interleaving
import YcsbCloud.Source.HdrHistogram

/-!
# Recording from many threads

`hdr_record_values_atomic` and `hdr_record_corrected_values_atomic` read and write the
histogram by the operations of `hdr_atomic.h`, which are sequentially consistent, so that a
step of a thread is one of them. A failed exchange takes its loop to the load again.
-/
namespace YcsbCloud.Source.HdrAtomic
open HdrHistogram Library.Interleaving

/-- The next operation on the histogram in the recording of one value. -/
inductive Recording where
  | addCount (value count : ℕ)
  | addTotal (value count : ℕ)
  | loadMin (value : ℕ)
  | exchangeMin (value currentMinValue : ℕ)
  | loadMax (value : ℕ)
  | exchangeMax (value currentMaxValue : ℕ)
  deriving DecidableEq, Repr

namespace Recording

/-- The checks of `hdr_record_values_atomic`: the first operation, unless it returns false. -/
def start (c : BucketConfig) (value : ℤ) (count : ℕ) : Option Recording :=
  if value < 0 then none
  else
    let countsIndex := c.countsIndexFor value.toNat
    if countsIndex < 0 ∨ c.countsLen ≤ countsIndex then none
    else some (.addCount value.toNat count)

/-- The operations of `counts_inc_normalised_atomic` and `update_min_max_atomic`, each with
the one after it. There is none after the last. -/
def operate (h : Histogram) : Recording → Histogram × Option Recording
  | addCount value count =>
    ({ h with
        counts := h.counts.modify (h.normalizeIndex (h.config.countsIndexFor value)).toNat (· + count)
        length_counts := (List.length_modify ..).trans h.length_counts },
      some (addTotal value count))
  | addTotal value count => ({ h with totalCount := h.totalCount + count }, some (loadMin value))
  | loadMin value =>
    (h, some (if 0 = value ∨ h.minValue ≤ value then loadMax value else exchangeMin value h.minValue))
  | exchangeMin value currentMinValue =>
    if h.minValue = currentMinValue then ({ h with minValue := value }, some (loadMax value))
    else (h, some (loadMin value))
  | loadMax value => (h, if value ≤ h.maxValue then none else some (exchangeMax value h.maxValue))
  | exchangeMax value currentMaxValue =>
    if h.maxValue = currentMaxValue then ({ h with maxValue := value }, none)
    else (h, some (loadMax value))

end Recording

/-- The arguments of a call of `hdr_record_corrected_values_atomic`, or of
`hdr_record_values_atomic`, which has no interval. -/
structure Call where
  value : ℤ
  count : ℕ
  expectedInterval : Option ℤ
  positive : 0 < count
  deriving DecidableEq, Repr

/-- The value after this one in the loop of `hdr_record_corrected_values_atomic`. -/
def Call.missingValue (call : Call) (value : ℤ) : Option ℤ :=
  match call.expectedInterval with
  | none => none
  | some expectedInterval =>
    if expectedInterval ≤ 0 ∨ value ≤ expectedInterval then none
    else
      let missingValue := value - expectedInterval
      if missingValue ≥ expectedInterval then some missingValue else none

/-- A call under way, the value it records and the operation it comes to. -/
structure InCall where
  call : Call
  value : ℤ
  recording : Recording
  deriving DecidableEq, Repr

/-- A call comes to the recording of a value: it goes on, or returns. -/
def Call.record (call : Call) (c : BucketConfig) (value : ℤ) : InCall ⊕ Bool :=
  match Recording.start c value call.count with
  | none => .inr false
  | some recording => .inl ⟨call, value, recording⟩

/-- The next operation of a call, after which it goes on or returns. -/
def InCall.operate (h : Histogram) (t : InCall) : Histogram × (InCall ⊕ Bool) :=
  match t.recording.operate h with
  | (h, some recording) => (h, .inl { t with recording := recording })
  | (h, none) =>
    match t.call.missingValue t.value with
    | none => (h, .inr true)
    | some missingValue => (h, t.call.record h.config missingValue)

/-- A histogram, and the calls that returned from it, with what they returned. -/
structure Recorded where
  histogram : Histogram
  returned : List (Call × Bool)

/-- A call is over, or goes on. -/
def Recorded.settle (call : Call) (h : Histogram) (returned : List (Call × Bool)) :
    InCall ⊕ Bool → Recorded × Option InCall
  | .inl t => (⟨h, returned⟩, some t)
  | .inr result => (⟨h, returned ++ [(call, result)]⟩, none)

/-- A step of a thread that calls again and again. -/
def recordValuesAtomic : Local Recorded (Option InCall) Call := fun call s l =>
  match l with
  | none =>
    some (Recorded.settle call s.histogram s.returned (call.record s.histogram.config call.value))
  | some t =>
    some (Recorded.settle t.call (t.operate s.histogram).1 s.returned (t.operate s.histogram).2)

end YcsbCloud.Source.HdrAtomic
