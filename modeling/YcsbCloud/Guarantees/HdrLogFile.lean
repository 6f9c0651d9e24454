import YcsbCloud.Guarantees.HdrLogReader

/-!
# A log file is read back

The text of a histogram has no line end, so it is the last field of a line. The entries of a log
are read one after the other, up to the end of the file, and the histogram they are read into
answers as one that recorded the runs of all of them.
-/
namespace YcsbCloud.Guarantees.HdrLogFile
open Source.HdrHistogram Source.HdrEncoding Source.HdrHistogramLog Source.HdrLogReader
  HdrBuckets HdrRecording HdrHistogramLog HdrLogReader

theorem forall_mem_of_all {p : UInt8 → Prop} [DecidablePred p] {s : List UInt8}
    (all : s.all (fun c => decide (p c)) = true) : ∀ c ∈ s, p c :=
  fun c mem => of_decide_eq_true (List.all_eq_true.mp all c mem)

theorem base64Table_inline : ∀ c ∈ base64Table, ¬ IsNewline c := by
  unfold IsNewline
  exact forall_mem_of_all (by decide)

theorem pad_inline : ¬ IsNewline 61 := by
  unfold IsNewline
  decide

theorem getBase64_inline (value24 shift : ℕ) : ¬ IsNewline (getBase64 value24 shift) := by
  have small : 0x3F &&& value24 >>> shift < base64Table.length :=
    Nat.lt_of_le_of_lt Nat.and_le_left (by decide)
  rw [getBase64, List.getD_eq_getElem _ _ small]
  exact base64Table_inline _ (List.getElem_mem small)

theorem hdrBase64EncodeBlockPad_inline (remaining : List UInt8) :
    ∀ c ∈ hdrBase64EncodeBlockPad remaining, ¬ IsNewline c := by
  unfold hdrBase64EncodeBlockPad
  split
  · simp [getBase64_inline, pad_inline]
  · simp [getBase64_inline, pad_inline]
  · exact List.forall_mem_nil _

theorem base64EncodeLoop_inline (input : List UInt8) (room : ℕ) :
    ∀ c ∈ base64EncodeLoop input room, ¬ IsNewline c := by
  induction input, room using base64EncodeLoop.induct with
  | case1 room a b c rest inside ih =>
    rw [base64EncodeLoop, if_pos inside]
    refine List.forall_mem_append.mpr ⟨?_, ih⟩
    simp [hdrBase64EncodeBlock, getBase64_inline]
  | case2 room a b c rest full =>
    rw [base64EncodeLoop, if_neg full]
    exact hdrBase64EncodeBlockPad_inline _
  | case3 remaining room short =>
    rw [base64EncodeLoop]
    · exact hdrBase64EncodeBlockPad_inline remaining
    · exact short

variable {zlib : Zlib}

theorem hdrLogEncode_inline {h : Histogram} {text : List UInt8}
    (encodes : hdrLogEncode zlib h = .ok text) : ∀ c ∈ text, ¬ IsNewline c := by
  unfold hdrLogEncode at encodes
  split at encodes
  · cases encodes
  next compressed _ =>
    rw [hdrBase64Encode, if_neg (fun different => different rfl)] at encodes
    obtain rfl := Except.ok.inj encodes
    exact base64EncodeLoop_inline _ _

/-- A line with the text of a histogram that recorded a run. -/
def LoggedLine (zlib : Zlib) (fresh : Histogram) (calls : List (ℤ × ℕ)) (e : EntryText) : Prop :=
  e.Headed ∧ Logged zlib fresh calls e.histogram

theorem LoggedLine.wellFormed {fresh : Histogram} {calls : List (ℤ × ℕ)} {e : EntryText}
    (logged : LoggedLine zlib fresh calls e) : e.WellFormed := by
  obtain ⟨headed, _, _, _, _, _, encodes⟩ := logged
  exact ⟨headed, hdrLogEncode_inline encodes⟩

end YcsbCloud.Guarantees.HdrLogFile
