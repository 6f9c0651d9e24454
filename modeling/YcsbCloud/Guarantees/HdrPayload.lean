import YcsbCloud.Guarantees.HdrEncoding
import YcsbCloud.Guarantees.HdrRecording
import YcsbCloud.Library.RunLength
import YcsbCloud.Source.HdrHistogramLog

/-!
# The counts of an encoded histogram

The counts of a histogram are written as the words of their runs, each word a zig-zag number.
The decoder reads such words and nothing else, and nothing outside the array it reads from.
What the header leaves out is found again in the counts.
-/
namespace YcsbCloud.Guarantees.HdrPayload
open Library Library.LogLinear Source.HdrHistogram Source.HdrEncoding Source.HdrHistogramLog
  HdrBuckets HdrEncoding HdrRecording

/-- The octets of a word. -/
def code (word : ℤ) : List UInt8 := zigZagEncodeI64 (BitVec.ofInt 64 word)

theorem code_natCast (value : ℕ) : code value = zigZagEncodeI64 (BitVec.ofNat 64 value) := by
  rw [code, BitVec.ofInt_natCast]

theorem code_length_pos (word : ℤ) : 0 < (code word).length := (zigZagEncodeI64_length _).1

/-- The loops write the words of the counts. -/
theorem encodeLoop_words (counts : List ℕ) :
    encodeLoop counts = (RunLength.words counts).flatMap code ∧ ∀ zeros, 0 < zeros →
      zerosLoop zeros counts =
        (RunLength.addZeros zeros (RunLength.words counts)).flatMap code := by
  induction counts with
  | nil =>
    refine ⟨rfl, fun zeros _ => ?_⟩
    rw [zerosLoop, RunLength.words, RunLength.addZeros, List.flatMap_singleton, code]
  | cons value rest ih =>
    obtain ⟨encoded, run⟩ := ih
    rw [encodeLoop, RunLength.words]
    by_cases zero : value = 0
    · rw [if_pos zero, if_pos zero]
      refine ⟨run 1 Nat.one_pos, fun zeros positive => ?_⟩
      rw [zerosLoop, if_pos zero.symm, run _ (Nat.succ_pos _),
        RunLength.addZeros_addZeros Nat.one_pos]
    · rw [if_neg zero, if_neg zero, encoded, ← code_natCast, List.flatMap_cons]
      refine ⟨rfl, fun zeros positive => ?_⟩
      rw [zerosLoop, if_neg (Ne.symm zero), encoded, RunLength.addZeros, if_neg (by omega),
        List.flatMap_cons, List.flatMap_cons, code_natCast, code]

/-- The words that fit their types, and that the decoder takes for as many zeros. -/
def Fits (ws : List ℤ) : Prop := ∀ word ∈ ws, -2 ^ 31 < word ∧ word < 2 ^ 63

/-- The numbers at one place after the other, up to an end, are these words. -/
def Parses (countsData : List UInt8) : ℕ → List ℤ → ℕ → Prop
  | dataIndex, [], dataEnd => dataIndex = dataEnd
  | dataIndex, word :: ws, dataEnd =>
    (zigZagDecodeI64 (countsData.drop dataIndex)).1.toInt = word ∧
      Parses countsData (dataIndex + (zigZagDecodeI64 (countsData.drop dataIndex)).2) ws dataEnd

theorem zigZagDecodeI64_pos (buffer : List UInt8) : 0 < (zigZagDecodeI64 buffer).2 := by
  have start : (0 : BitVec 64).toNat < 2 ^ (7 * 0) := by decide
  rw [zigZagDecodeI64]
  dsimp only
  rw [(decodeFrom_number buffer (Nat.zero_add 8) start).2]
  have := Varint.number_length_pos 8 ((buffer.drop 0).map UInt8.toNat)
  omega

theorem Parses.le {countsData : List UInt8} {ws : List ℤ} {dataIndex dataEnd : ℕ}
    (parses : Parses countsData dataIndex ws dataEnd) : dataIndex + ws.length ≤ dataEnd := by
  induction ws generalizing dataIndex with
  | nil => exact Nat.le_of_eq parses
  | cons word ws ih =>
    have := ih parses.2
    have := zigZagDecodeI64_pos (countsData.drop dataIndex)
    rw [List.length_cons]
    omega

/-- What is written is parsed to its words. -/
theorem parses_code {countsData rest : List UInt8} {ws : List ℤ} (fits : Fits ws) {dataIndex : ℕ}
    (data : countsData.drop dataIndex = ws.flatMap code ++ rest) :
    Parses countsData dataIndex ws (dataIndex + (ws.flatMap code).length) := by
  induction ws generalizing dataIndex with
  | nil => rfl
  | cons word ws ih =>
    have wordFits := fits word (List.mem_cons_self ..)
    rw [List.flatMap_cons, List.append_assoc] at data
    rw [Parses, data, code, zigZagDecodeI64_encode, ← code, List.flatMap_cons, List.length_append,
      ← Nat.add_assoc]
    refine ⟨?_, ih (fun w member => fits w (List.mem_cons_of_mem _ member)) ?_⟩
    · rw [BitVec.toInt_ofInt]
      exact Int.bmod_eq_of_le (by omega) (by omega)
    · rw [← List.drop_drop, data, List.drop_left]

/-- A turn of the decoder puts the counts of a word after the counts that are done. -/
theorem applyLoop_word {countsData : List UInt8} {dataLimit dataIndex : ℕ} {word : ℤ}
    (reads : (zigZagDecodeI64 (countsData.drop dataIndex)).1.toInt = word)
    (inside : dataIndex < dataLimit) (turns : ℕ) (done : List ℕ) {left : ℕ} (some_left : 0 < left) :
    applyLoop countsData dataLimit (turns + 1) dataIndex done.length
        (done ++ List.replicate left 0) =
      if -2 ^ 31 < word ∧ (RunLength.unfold word).length ≤ left then
        applyLoop countsData dataLimit turns
          (dataIndex + (zigZagDecodeI64 (countsData.drop dataIndex)).2)
          (done ++ RunLength.unfold word).length
          (done ++ RunLength.unfold word ++
            List.replicate (left - (RunLength.unfold word).length) 0)
      else .error HDR_TRAILING_ZEROS_INVALID := by
  have length : (done ++ List.replicate left 0).length = done.length + left := by
    rw [List.length_append, List.length_replicate]
  have signed := BitVec.toInt_eq_toNat_cond (zigZagDecodeI64 (countsData.drop dataIndex)).1
  rw [applyLoop, if_pos ⟨inside, by omega⟩]
  dsimp only
  rw [reads]
  by_cases negative : word < 0
  · have zeros : RunLength.unfold word = List.replicate word.natAbs 0 := if_pos negative
    rw [if_pos negative, zeros, List.length_replicate]
    by_cases fits : -2 ^ 31 < word ∧ word.natAbs ≤ left
    · rw [if_pos fits, if_neg (by omega), List.append_assoc, List.replicate_append_replicate]
      congr 1
      · rw [List.length_append, List.length_replicate]
        omega
      · congr 2
        omega
    · rw [if_neg fits, if_pos (by omega)]
  · have one : RunLength.unfold word =
        [(zigZagDecodeI64 (countsData.drop dataIndex)).1.toNat] := by
      rw [RunLength.unfold, if_neg negative]
      congr 1
      split at signed <;> omega
    obtain ⟨left, rfl⟩ := Nat.exists_eq_succ_of_ne_zero (Nat.ne_of_gt some_left)
    rw [if_neg negative, one, if_pos ⟨by omega, Nat.succ_le_succ (Nat.zero_le left)⟩,
      List.set_append_right _ _ (Nat.le_refl _), Nat.sub_self, List.replicate_succ,
      List.set_cons_zero, List.append_assoc, List.length_append]
    rfl

/-- The decoder puts the counts of the words that it parses after the counts that are done. -/
theorem applyLoop_parses {countsData : List UInt8} {dataLimit : ℕ} (ws : List ℤ)
    {turns dataIndex : ℕ} (parses : Parses countsData dataIndex ws dataLimit)
    (above : ∀ word ∈ ws, -2 ^ 31 < word) (enough : ws.length ≤ turns) (done : List ℕ) {left : ℕ}
    (room : (RunLength.expand ws).length ≤ left) :
    applyLoop countsData dataLimit turns dataIndex done.length (done ++ List.replicate left 0) =
      .ok (dataLimit, done ++ RunLength.expand ws ++
        List.replicate (left - (RunLength.expand ws).length) 0) := by
  induction ws generalizing turns dataIndex done left with
  | nil =>
    obtain rfl : dataIndex = dataLimit := parses
    cases turns <;> simp [applyLoop, RunLength.expand]
  | cons word ws ih =>
    have less := parses.le
    have some_counts := RunLength.length_unfold_pos word
    rw [List.length_cons] at less enough
    rw [RunLength.expand_cons, List.length_append] at room
    obtain ⟨turns, rfl⟩ := Nat.exists_eq_succ_of_ne_zero (n := turns) (by omega)
    have laterRoom : (RunLength.expand ws).length ≤ left - (RunLength.unfold word).length := by
      omega
    rw [applyLoop_word parses.1 (by omega) turns done (by omega),
      if_pos ⟨above word (List.mem_cons_self ..), by omega⟩,
      ih parses.2 (fun w member => above w (List.mem_cons_of_mem _ member)) (by omega) _ laterRoom,
      RunLength.expand_cons, List.length_append, Nat.sub_sub, List.append_assoc done]

/-- What the decoder accepts it has parsed. -/
theorem parses_of_applyLoop {countsData : List UInt8} {dataLimit turns dataIndex : ℕ}
    {done counts : List ℕ} {left : ℕ}
    (applied : applyLoop countsData dataLimit turns dataIndex done.length
      (done ++ List.replicate left 0) = .ok (dataLimit, counts)) :
    ∃ ws, Parses countsData dataIndex ws dataLimit ∧ (∀ word ∈ ws, -2 ^ 31 < word) ∧
      (RunLength.expand ws).length ≤ left ∧
      counts = done ++ RunLength.expand ws ++
        List.replicate (left - (RunLength.expand ws).length) 0 := by
  have ended {d : ℕ} {c : List ℕ}
      (stops : (Except.ok (d, c) : Except ℤ (ℕ × List ℕ)) = .ok (dataLimit, counts)) :
      d = dataLimit ∧ c = counts := Prod.mk.inj (Except.ok.inj stops)
  induction turns generalizing dataIndex done left with
  | zero =>
    obtain ⟨rfl, rfl⟩ := ended applied
    exact ⟨[], rfl, List.forall_mem_nil _, Nat.zero_le _, by simp [RunLength.expand]⟩
  | succ turns ih =>
    by_cases going : dataIndex < dataLimit ∧ 0 < left
    · rw [applyLoop_word rfl going.1 turns done going.2] at applied
      split at applied
      next fits =>
        obtain ⟨ws, parses, above, room, same⟩ := ih applied
        refine ⟨_ :: ws, ⟨rfl, parses⟩, ?_, ?_, ?_⟩
        · exact List.forall_mem_cons.mpr ⟨fits.1, above⟩
        · rw [RunLength.expand_cons, List.length_append]
          omega
        · rw [same, RunLength.expand_cons, List.length_append, Nat.sub_sub, List.append_assoc done]
      next _ => cases applied
    · have stops : ¬ (dataIndex < dataLimit ∧
          done.length < (done ++ List.replicate left 0).length) := by
        rw [List.length_append, List.length_replicate]
        omega
      rw [applyLoop, if_neg stops] at applied
      obtain ⟨rfl, rfl⟩ := ended applied
      exact ⟨[], rfl, List.forall_mem_nil _, Nat.zero_le _, by simp [RunLength.expand]⟩

theorem applyToCountsZz_parses {countsLen dataLimit : ℕ} {countsData : List UInt8} {ws : List ℤ}
    (parses : Parses countsData 0 ws dataLimit) (above : ∀ word ∈ ws, -2 ^ 31 < word)
    (room : (RunLength.expand ws).length ≤ countsLen) :
    applyToCountsZz (List.replicate countsLen 0) countsData dataLimit =
      .ok (RunLength.expand ws ++ List.replicate (countsLen - (RunLength.expand ws).length) 0) := by
  have less := parses.le
  rw [Nat.zero_add] at less
  have applied := applyLoop_parses ws parses above less [] room
  rw [List.nil_append, List.nil_append, List.length_nil] at applied
  rw [applyToCountsZz, applied]
  dsimp only
  rw [if_neg (Nat.lt_irrefl _), if_neg (Nat.lt_irrefl _)]

/-- A payload is accepted exactly if it is numbers that end where it ends, stand for no more
counts than there are, and stand for no run of `2 ^ 31` zeros. The counts are theirs. -/
theorem payload_accepted_iff (countsLen dataLimit : ℕ) (countsData : List UInt8) (counts : List ℕ) :
    applyToCountsZz (List.replicate countsLen 0) countsData dataLimit = .ok counts ↔
      ∃ ws, Parses countsData 0 ws dataLimit ∧ (∀ word ∈ ws, -2 ^ 31 < word) ∧
        (RunLength.expand ws).length ≤ countsLen ∧
        counts = RunLength.expand ws ++
          List.replicate (countsLen - (RunLength.expand ws).length) 0 := by
  constructor
  · intro accepted
    unfold applyToCountsZz at accepted
    split at accepted
    · cases accepted
    next dataIndex reached applied =>
      split at accepted
      · cases accepted
      · split at accepted
        · cases accepted
        · obtain rfl : dataIndex = dataLimit := by omega
          cases accepted
          have started : applyLoop countsData dataIndex dataIndex 0 ([] : List ℕ).length
              ([] ++ List.replicate countsLen 0) = .ok (dataIndex, counts) := applied
          exact parses_of_applyLoop started
  · rintro ⟨ws, parses, above, room, rfl⟩
    exact applyToCountsZz_parses parses above room

theorem fits_words {counts : List ℕ} (small : ∀ count ∈ counts, count < 2 ^ 63)
    (few : counts.length < 2 ^ 31) : Fits (RunLength.words counts) := by
  intro word member
  have whole := RunLength.expand_words counts
  by_cases negative : word < 0
  · have := RunLength.natAbs_le_of_mem member negative
    rw [whole] at this
    omega
  · have present := RunLength.toNat_mem_of_mem member negative
    rw [whole] at present
    have := small _ present
    omega

/-- The counts that were written are read back, whatever follows them. -/
theorem applyToCountsZz_encodeLoop {counts : List ℕ} (small : ∀ count ∈ counts, count < 2 ^ 63)
    (few : counts.length < 2 ^ 31) (left : ℕ) (rest : List UInt8) :
    applyToCountsZz (List.replicate (counts.length + left) 0) (encodeLoop counts ++ rest)
      (encodeLoop counts).length = .ok (counts ++ List.replicate left 0) := by
  have whole := RunLength.expand_words counts
  have fits := fits_words small few
  have data : ((RunLength.words counts).flatMap code ++ rest).drop 0 =
      (RunLength.words counts).flatMap code ++ rest := List.drop_zero
  have parses := parses_code fits data
  rw [Nat.zero_add, ← (encodeLoop_words counts).1] at parses
  have applied := applyToCountsZz_parses parses (fun word member => (fits word member).1)
    (whole ▸ Nat.le_add_right counts.length left)
  rwa [whole, Nat.add_sub_cancel_left] at applied

theorem octetAt_take (buffer : List UInt8) {i k : ℕ} (inside : i < k) :
    octetAt (buffer.take k) i = octetAt buffer i := by
  rw [octetAt, octetAt, List.getD_eq_getElem?_getD, List.getD_eq_getElem?_getD,
    List.getElem?_take_of_lt inside]

theorem decodeFrom_take (buffer : List UInt8) {more i : ℕ} (whole : i + more = 8)
    (value : BitVec 64) :
    decodeFrom (buffer.take 9) more i value = decodeFrom buffer more i value := by
  induction more generalizing i value with
  | zero => rw [decodeFrom, decodeFrom, octetAt_take buffer (by omega)]
  | succ more ih =>
    rw [decodeFrom, decodeFrom, octetAt_take buffer (by omega), ih (by omega)]

/-- A number takes nine octets at most. -/
theorem zigZagDecodeI64_take (buffer : List UInt8) :
    zigZagDecodeI64 (buffer.take 9) = zigZagDecodeI64 buffer := by
  rw [zigZagDecodeI64, zigZagDecodeI64, decodeFrom_take buffer (Nat.zero_add 8)]

theorem applyLoop_congr {countsData other : List UInt8} {dataLimit : ℕ}
    (same : ∀ dataIndex < dataLimit,
      zigZagDecodeI64 (countsData.drop dataIndex) = zigZagDecodeI64 (other.drop dataIndex))
    (turns dataIndex countsIndex : ℕ) (counts : List ℕ) :
    applyLoop countsData dataLimit turns dataIndex countsIndex counts =
      applyLoop other dataLimit turns dataIndex countsIndex counts := by
  induction turns generalizing dataIndex countsIndex counts with
  | zero => rfl
  | succ turns ih =>
    rw [applyLoop, applyLoop]
    by_cases going : dataIndex < dataLimit ∧ countsIndex < counts.length
    · rw [if_pos going, if_pos going, same dataIndex going.1]
      dsimp only
      simp only [ih]
    · rw [if_neg going, if_neg going]

/-- The numbers that the loop reads, each by its index and its octets. -/
def applyReads (countsData : List UInt8) (dataLimit countsLen : ℕ) : ℕ → ℕ → ℕ → List (ℕ × ℕ)
  | 0, _, _ => []
  | turns + 1, dataIndex, countsIndex =>
    if dataIndex < dataLimit ∧ countsIndex < countsLen then
      let (value, bytesRead) := zigZagDecodeI64 (countsData.drop dataIndex)
      (dataIndex, bytesRead) ::
        if value.toInt < 0 then
          if value.toInt ≤ -2 ^ 31 ∨ countsIndex - value.toInt > countsLen then []
          else applyReads countsData dataLimit countsLen turns (dataIndex + bytesRead)
            (countsIndex + (-value.toInt).toNat)
        else applyReads countsData dataLimit countsLen turns (dataIndex + bytesRead)
          (countsIndex + 1)
    else []

theorem decodeFrom_read_le (buffer : List UInt8) (more i : ℕ) (value : BitVec 64) :
    (decodeFrom buffer more i value).2 ≤ i + more + 1 := by
  induction more generalizing i value with
  | zero => exact le_refl _
  | succ more ih =>
    rw [decodeFrom]
    split
    · have later := ih (i + 1) (value ||| (octetAt buffer i &&& 0x7F) <<< (7 * i))
      omega
    · omega

theorem applyReads_inside (countsData : List UInt8) (dataLimit countsLen : ℕ)
    (turns dataIndex countsIndex : ℕ) :
    ∀ read ∈ applyReads countsData dataLimit countsLen turns dataIndex countsIndex,
      read.1 + read.2 ≤ dataLimit + 8 := by
  induction turns generalizing dataIndex countsIndex with
  | zero => exact List.forall_mem_nil _
  | succ turns ih =>
    rw [applyReads]
    split
    next going =>
      have nine : (zigZagDecodeI64 (countsData.drop dataIndex)).2 ≤ 9 :=
        decodeFrom_read_le (countsData.drop dataIndex) 8 0 0
      dsimp only
      refine List.forall_mem_cons.mpr ⟨by omega, ?_⟩
      split
      · split
        · exact List.forall_mem_nil _
        · exact ih _ _
      · exact ih _ _
    · exact List.forall_mem_nil _

/-- Of any array, sound or not, no more is read than the payload and the nine octets that are
allocated after it: each number that the loop reads ends there, and the octets behind decide
nothing. -/
theorem payload_read_inside (counts : List ℕ) (countsData : List UInt8) (dataLimit : ℕ) :
    (∀ read ∈ applyReads countsData dataLimit counts.length dataLimit 0 0,
      read.1 + read.2 ≤ dataLimit + 8) ∧
    applyToCountsZz counts countsData dataLimit =
      applyToCountsZz counts (countsData.take (dataLimit + 9)) dataLimit := by
  refine ⟨applyReads_inside countsData dataLimit counts.length dataLimit 0 0, ?_⟩
  rw [applyToCountsZz, applyToCountsZz]
  congr 1
  apply applyLoop_congr
  intro dataIndex inside
  rw [← zigZagDecodeI64_take (countsData.drop dataIndex),
    ← zigZagDecodeI64_take ((countsData.take (dataLimit + 9)).drop dataIndex), List.drop_take,
    List.take_take, Nat.min_eq_left (by omega)]

/-- The indices and the sum that the loop has found for the slots counted so far. -/
structure Found (slots : List ℕ) (minNonZeroIndex maxIndex : ℤ) (observedTotalCount : ℕ) :
    Prop where
  least : (minNonZeroIndex = -1 ∧ ∀ i ∈ slots, i = 0) ∨
    ∃ m : ℕ, minNonZeroIndex = m ∧ m ∈ slots ∧ m ≠ 0 ∧ ∀ i ∈ slots, i ≠ 0 → m ≤ i
  greatest : (maxIndex = -1 ∧ slots = []) ∨
    ∃ m : ℕ, maxIndex = m ∧ IsGreatest {i | i ∈ slots} m
  total : observedTotalCount = slots.length

theorem Found.count {slots : List ℕ} {minNonZeroIndex maxIndex : ℤ} {observedTotalCount : ℕ}
    (found : Found slots minNonZeroIndex maxIndex observedTotalCount) {i : ℕ}
    (before : ∀ j ∈ slots, j < i) {count : ℕ} (positive : 0 < count) :
    Found (slots ++ List.replicate count i)
      (if minNonZeroIndex = -1 ∧ i ≠ 0 then i else minNonZeroIndex) i
      (observedTotalCount + count) := by
  have member (j : ℕ) : j ∈ slots ++ List.replicate count i ↔ j ∈ slots ∨ j = i := by
    rw [List.mem_append, List.mem_replicate]
    simp [Nat.ne_of_gt positive]
  refine ⟨?_, .inr ⟨i, rfl, (member i).mpr (.inr rfl), ?_⟩, ?_⟩
  · rcases found.least with ⟨untouched, zeros⟩ | ⟨m, rfl, present, nonzero, least⟩
    · by_cases first : i = 0
      · refine .inl ⟨by rw [if_neg (by simp [first]), untouched], ?_⟩
        intro j among
        rcases (member j).mp among with old | new
        · exact zeros j old
        · rw [new, first]
      · refine .inr ⟨i, if_pos ⟨untouched, first⟩, (member i).mpr (.inr rfl), first, ?_⟩
        intro j among nonzero
        rcases (member j).mp among with old | new
        · exact absurd (zeros j old) nonzero
        · exact Nat.le_of_eq new.symm
    · refine .inr ⟨m, if_neg (by omega), (member m).mpr (.inl present), nonzero, ?_⟩
      intro j among nonzero
      rcases (member j).mp among with old | new
      · exact least j old nonzero
      · rw [new]
        exact Nat.le_of_lt (before m present)
  · intro j among
    rcases (member j).mp among with old | new
    · exact Nat.le_of_lt (before j old)
    · exact Nat.le_of_eq new
  · rw [found.total, List.length_append, List.length_replicate]

theorem resetLoop_found (counts : List ℕ) {slots : List ℕ} {minNonZeroIndex maxIndex : ℤ}
    {observedTotalCount i : ℕ}
    (found : Found slots minNonZeroIndex maxIndex observedTotalCount)
    (before : ∀ j ∈ slots, j < i) :
    ∃ least greatest total,
      Histogram.resetLoop counts i minNonZeroIndex maxIndex observedTotalCount =
        (least, greatest, total) ∧
      Found (slots ++ OrderStatistics.expand counts i) least greatest total := by
  induction counts generalizing slots minNonZeroIndex maxIndex observedTotalCount i with
  | nil =>
    refine ⟨_, _, _, rfl, ?_⟩
    rw [show OrderStatistics.expand [] i = [] from rfl, List.append_nil]
    exact found
  | cons count rest ih =>
    have later : ∀ j ∈ slots ++ List.replicate count i, j < i + 1 := by
      intro j among
      rcases List.mem_append.mp among with old | new
      · exact Nat.lt_succ_of_lt (before j old)
      · rw [(List.mem_replicate.mp new).2]
        exact Nat.lt_succ_self i
    rw [Histogram.resetLoop, OrderStatistics.expand_cons, ← List.append_assoc]
    split
    next positive => exact ih (found.count before positive) later
    next zero =>
      obtain rfl : count = 0 := by omega
      rw [List.replicate_zero, List.append_nil] at later ⊢
      exact ih found later

/-- Whatever the counts are, the counters are made to agree with them. -/
theorem holds_hdrResetInternalCounters {h : Histogram} (offset : h.normalizingIndexOffset = 0) :
    Holds h.hdrResetInternalCounters (OrderStatistics.expand h.counts 0) := by
  have start : Found [] (-1) (-1) 0 :=
    ⟨.inl ⟨rfl, fun _ member => nomatch member⟩, .inl ⟨rfl, rfl⟩, rfl⟩
  obtain ⟨least, greatest, total, looped, found⟩ :=
    resetLoop_found h.counts (i := 0) start fun _ member => nomatch member
  rw [List.nil_append] at found
  have position (i : ℕ) : h.config.scale.position (h.config.hdrValueAtIndex i) = i := by
    rw [hdrValueAtIndex_eq h.valid, Scale.position_lowest]
  rw [Histogram.hdrResetInternalCounters, looped]
  refine {
    offset := offset
    inside := fun i member => ?_
    counts := ?_
    total := found.total
    minFresh := fun empty => ?_
    minSlot := fun nonempty noZero => ?_
    maxFresh := fun empty => ?_
    maxSlot := fun nonempty => ?_ }
  · have counted := List.count_pos_iff.mpr member
    rw [OrderStatistics.count_expand, if_pos (Nat.zero_le i), Nat.sub_zero] at counted
    by_contra outside
    rw [List.getD_eq_default _ _ (by rw [h.length_counts]; exact Nat.not_lt.mp outside)] at counted
    exact Nat.lt_irrefl 0 counted
  · dsimp only
    rw [← h.length_counts, OrderStatistics.tally_expand]
  · dsimp only
    rcases found.least with ⟨rfl, _⟩ | ⟨m, _, present, _, _⟩
    · rw [if_pos rfl]
    · rw [empty] at present
      cases present
  · dsimp only
    rcases found.least with ⟨_, zeros⟩ | ⟨m, rfl, present, _, lowest⟩
    · obtain ⟨i, member⟩ := List.exists_mem_of_ne_nil _ nonempty
      exact absurd (zeros i member ▸ member) noZero
    · rw [if_neg (by omega), Int.toNat_natCast, position]
      exact ⟨present, fun i member => lowest i member fun zero => noZero (zero ▸ member)⟩
  · dsimp only
    rcases found.greatest with ⟨rfl, _⟩ | ⟨m, _, present, _⟩
    · rw [if_pos rfl]
    · rw [empty] at present
      cases present
  · dsimp only
    rcases found.greatest with ⟨_, none_counted⟩ | ⟨m, rfl, highest⟩
    · exact absurd none_counted nonempty
    · rw [if_neg (by omega), Int.toNat_natCast, position_highestEquivalentValue h.valid, position]
      exact highest

end YcsbCloud.Guarantees.HdrPayload
