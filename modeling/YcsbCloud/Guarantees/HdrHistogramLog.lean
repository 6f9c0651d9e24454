import Mathlib.Algebra.Order.BigOperators.Group.List
import YcsbCloud.Guarantees.HdrMerge
import YcsbCloud.Guarantees.HdrPayload

/-!
# Encoded histograms are read back

The text of a histogram, decoded, is a histogram of the same configuration that holds the same
slots. So a log answers as the histograms it was written from, and a text that is cut off is
refused.
-/
namespace YcsbCloud.Guarantees.HdrHistogramLog
open Library Library.LogLinear Source.HdrHistogram Source.HdrEncoding Source.HdrHistogramLog
  HdrBuckets HdrEncoding HdrRecording HdrPayload

@[simp] theorem htobe_length {w : ℕ} (v : BitVec w) : (htobe v).length = w / 8 := by
  rw [htobe, List.length_reverse, LittleEndian.octets_length]

theorem be32toh_head (v : BitVec 32) (rest : List UInt8) : be32toh (htobe v ++ rest) 0 = v := by
  have four : (htobe v).length = 4 := htobe_length v
  rw [be32toh, List.drop_zero, List.take_left' four, htobe, List.reverse_reverse,
    LittleEndian.value_octets_of_lt _ _ v.isLt, BitVec.ofNat_toNat, BitVec.setWidth_eq]

theorem be64toh_head (v : BitVec 64) (rest : List UInt8) : be64toh (htobe v ++ rest) 0 = v := by
  have eight : (htobe v).length = 8 := htobe_length v
  rw [be64toh, List.drop_zero, List.take_left' eight, htobe, List.reverse_reverse,
    LittleEndian.value_octets_of_lt _ _ v.isLt, BitVec.ofNat_toNat, BitVec.setWidth_eq]

theorem be32toh_skip {w : ℕ} (v : BitVec w) (rest : List UInt8) (offset : ℕ) :
    be32toh (htobe v ++ rest) (w / 8 + offset) = be32toh rest offset := by
  rw [be32toh, be32toh, ← htobe_length v, List.drop_length_add_append]

theorem be64toh_skip {w : ℕ} (v : BitVec w) (rest : List UInt8) (offset : ℕ) :
    be64toh (htobe v ++ rest) (w / 8 + offset) = be64toh rest offset := by
  rw [be64toh, be64toh, ← htobe_length v, List.drop_length_add_append]

theorem encodingFlyweight_length (h : Histogram) (payloadLen : ℕ) :
    (encodingFlyweight h payloadLen).length = SIZEOF_ENCODING_FLYWEIGHT_V1 := by
  simp [encodingFlyweight, SIZEOF_ENCODING_FLYWEIGHT_V1]

/-- What the decoder reads in the header. -/
structure Header (flyweight : List UInt8) (h : Histogram) (payloadLen : ℕ) : Prop where
  cookie : be32toh flyweight 0 = V2_ENCODING_COOKIE ||| 0x10
  length : be32toh flyweight 4 = BitVec.ofNat 32 payloadLen
  offset : be32toh flyweight 8 = BitVec.ofInt 32 h.normalizingIndexOffset
  figures : be32toh flyweight 12 = BitVec.ofNat 32 h.config.significantFigures
  lowest : be64toh flyweight 16 = BitVec.ofNat 64 h.config.lowestDiscernibleValue
  highest : be64toh flyweight 24 = BitVec.ofNat 64 h.config.highestTrackableValue
  ratio : be64toh flyweight 32 = h.conversionRatio

theorem header_encodingFlyweight (h : Histogram) (payloadLen : ℕ) (rest : List UInt8) :
    Header (encodingFlyweight h payloadLen ++ rest) h payloadLen := by
  simp only [encodingFlyweight, List.append_assoc]
  exact {
    cookie := be32toh_head ..
    length := by
      change be32toh _ (32 / 8 + 0) = _
      simp only [be32toh_skip, be32toh_head]
    offset := by
      change be32toh _ (32 / 8 + (32 / 8 + 0)) = _
      simp only [be32toh_skip, be32toh_head]
    figures := by
      change be32toh _ (32 / 8 + (32 / 8 + (32 / 8 + 0))) = _
      simp only [be32toh_skip, be32toh_head]
    lowest := by
      change be64toh _ (32 / 8 + (32 / 8 + (32 / 8 + (32 / 8 + 0)))) = _
      simp only [be64toh_skip, be64toh_head]
    highest := by
      change be64toh _ (32 / 8 + (32 / 8 + (32 / 8 + (32 / 8 + (64 / 8 + 0))))) = _
      simp only [be64toh_skip, be64toh_head]
    ratio := by
      change be64toh _ (32 / 8 + (32 / 8 + (32 / 8 + (32 / 8 + (64 / 8 + (64 / 8 + 0)))))) = _
      simp only [be64toh_skip, be64toh_head] }

theorem countsLen_le {c : BucketConfig} (valid : c.Valid) : c.countsLen ≤ 2 ^ 24 := by
  have level : c.scale.level c.highestTrackableValue ≤ 63 := by
    rcases Nat.eq_zero_or_pos c.highestTrackableValue with zero | positive
    · rw [zero, Scale.level, Nat.log2_zero]
      omega
    · have := (Nat.log2_lt (Nat.ne_of_gt positive)).mpr valid.highest
      unfold Scale.level
      omega
  have half : 2 ^ c.subBucketHalfCountMagnitude ≤ 2 ^ 17 :=
    Nat.pow_le_pow_right Nat.two_pos valid.half_le
  rw [valid.countsLen, valid.buckets]
  exact Nat.le_trans (Nat.mul_le_mul (Nat.succ_le_succ (Nat.succ_le_succ level)) half) (by decide)

theorem length_flatMap_code_le (ws : List ℤ) : (ws.flatMap code).length ≤ 9 * ws.length := by
  induction ws with
  | nil => exact Nat.le_refl 0
  | cons word rest ih =>
    have most : (code word).length ≤ 9 := (zigZagEncodeI64_length _).2
    rw [List.flatMap_cons, List.length_append, List.length_cons]
    omega

/-- The numbers fit what is allocated for them. -/
theorem encodeLoop_length_le (counts : List ℕ) :
    (encodeLoop counts).length ≤ 9 * counts.length := by
  rw [(encodeLoop_words counts).1]
  exact Nat.le_trans (length_flatMap_code_le _)
    (Nat.mul_le_mul_left 9 (RunLength.length_words_le counts))

theorem countsLimit_eq (h : Histogram) :
    countsLimit h = min (h.config.scale.position h.maxValue + 1) h.config.countsLen := by
  have index := countsIndexFor_eq h.valid h.maxValue
  rw [countsLimit]
  split <;> omega

/-- The counts that are left out are zeros. -/
theorem take_countsLimit {h : Histogram} {slots : List ℕ} (holds : Holds h slots) :
    h.counts.take (countsLimit h) ++
      List.replicate (h.config.countsLen - countsLimit h) 0 = h.counts := by
  have zeros : h.counts.drop (countsLimit h) =
      List.replicate (h.config.countsLen - countsLimit h) 0 := by
    refine List.eq_replicate_iff.mpr ⟨by rw [List.length_drop, h.length_counts], ?_⟩
    intro count member
    obtain ⟨i, inside, rfl⟩ := List.mem_iff_getElem.mp member
    rw [List.length_drop, h.length_counts] at inside
    rw [List.getElem_drop, List.getElem_of_eq holds.counts, OrderStatistics.getElem_tally,
      List.count_eq_zero]
    intro counted
    have highest := (holds.maxSlot (List.ne_nil_of_mem counted)).2 counted
    rw [countsLimit_eq] at inside highest
    omega
  rw [← zeros, List.take_append_drop]

theorem countsLimit_le (h : Histogram) : countsLimit h ≤ h.config.countsLen := by
  rw [countsLimit_eq]
  exact Nat.min_le_right ..

/-- What the counts of a histogram are written to fits its types. -/
theorem payload_length_le (h : Histogram) :
    (encodeLoop (h.counts.take (countsLimit h))).length ≤ 9 * 2 ^ 24 := by
  have limit := Nat.le_trans (countsLimit_le h) (countsLen_le h.valid)
  have := encodeLoop_length_le (h.counts.take (countsLimit h))
  have := List.length_take_le (countsLimit h) h.counts
  omega

/-- One count is written at least. -/
theorem payload_length_pos (h : Histogram) :
    0 < (encodeLoop (h.counts.take (countsLimit h))).length := by
  have some_counts : 0 < h.config.countsLen := by
    rw [h.valid.countsLen]
    exact Nat.mul_pos (Nat.succ_pos _) (Nat.two_pow_pos _)
  have some_written : 0 < (h.counts.take (countsLimit h)).length := by
    rw [List.length_take, h.length_counts, countsLimit_eq]
    omega
  rw [(encodeLoop_words _).1]
  generalize h.counts.take (countsLimit h) = counts at some_written ⊢
  have whole := RunLength.expand_words counts
  cases ws : RunLength.words counts with
  | nil =>
    rw [ws] at whole
    rw [← whole] at some_written
    exact absurd some_written (Nat.lt_irrefl 0)
  | cons word rest =>
    have := code_length_pos word
    rw [List.flatMap_cons, List.length_append]
    omega

theorem encoded_length (h : Histogram) : (encoded h).length =
    SIZEOF_ENCODING_FLYWEIGHT_V1 + (encodeLoop (h.counts.take (countsLimit h))).length := by
  rw [encoded, List.length_append, encodingFlyweight_length]

theorem encoded_take (h : Histogram) : (encoded h).take SIZEOF_ENCODING_FLYWEIGHT_V1 =
    encodingFlyweight h (encodeLoop (h.counts.take (countsLimit h))).length :=
  List.take_left' (encodingFlyweight_length ..)

theorem encoded_drop (h : Histogram) : (encoded h).drop SIZEOF_ENCODING_FLYWEIGHT_V1 =
    encodeLoop (h.counts.take (countsLimit h)) :=
  List.drop_left' (encodingFlyweight_length ..)

theorem int64_kept {x : Int64} (nonneg : 0 ≤ x.toInt) :
    Int64.ofBitVec (BitVec.ofNat 64 x.toInt.toNat) = x := by
  rw [← BitVec.ofInt_natCast, Int.toNat_of_nonneg nonneg, Int64.ofBitVec_ofInt, Int64.ofInt_toInt]

theorem int32_kept {x : Int32} (nonneg : 0 ≤ x.toInt) :
    Int32.ofBitVec (BitVec.ofNat 32 x.toInt.toNat) = x := by
  rw [← BitVec.ofInt_natCast, Int.toNat_of_nonneg nonneg, Int32.ofBitVec_ofInt, Int32.ofInt_toInt]

/-- The arguments of `hdr_init` are the ones the configuration keeps. -/
theorem arguments_kept {lowest highest : Int64} {figures : Int32} {c : BucketConfig}
    (accepted : hdrCalculateBucketConfig lowest highest figures = .ok c) :
    Int64.ofBitVec (BitVec.ofNat 64 c.lowestDiscernibleValue) = lowest ∧
      Int64.ofBitVec (BitVec.ofNat 64 c.highestTrackableValue) = highest ∧
      Int32.ofBitVec (BitVec.ofNat 32 c.significantFigures) = figures := by
  have keeps := hdrCalculateBucketConfig_keeps accepted
  rw [keeps.lowest, keeps.highest, keeps.figures]
  exact ⟨int64_kept keeps.lowest_nonneg, int64_kept keeps.highest_nonneg,
    int32_kept keeps.figures_nonneg⟩

/-- A histogram that was read back: it holds the slots of the one that was written, and has
its configuration and its conversion ratio. -/
structure ReadBack (back h : Histogram) (slots : List ℕ) : Prop where
  config : back.config = h.config
  ratio : back.conversionRatio = h.conversionRatio
  holds : Holds back slots

variable {zlib : Zlib} {h : Histogram} {slots : List ℕ} {n : ℕ}
  {lowest highest : Int64} {figures : Int32}

theorem hdrInit_counts {fresh : Histogram} (created : hdrInit lowest highest figures = .ok fresh) :
    fresh.counts = List.replicate fresh.config.countsLen 0 := by
  rw [(hdrInit_spec created).2.counts, OrderStatistics.tally_nil]

/-- A histogram with the counts of another and no offset holds the same slots. -/
theorem holds_decoded {fresh : Histogram} {flyweight : List UInt8}
    (config : fresh.config = h.config) (holds : Holds h slots) (header : Header flyweight h n)
    (length_counts : h.counts.length = fresh.counts.length) :
    ReadBack (decoded fresh flyweight h.counts length_counts) h slots where
  config := config
  ratio := header.ratio
  holds := by
    have offset : (be32toh flyweight 8).toInt = 0 := by
      rw [header.offset, holds.offset]
      rfl
    have held := holds_hdrResetInternalCounters (h := { fresh with
      counts := h.counts
      length_counts := length_counts.trans fresh.length_counts
      normalizingIndexOffset := (be32toh flyweight 8).toInt
      conversionRatio := be64toh flyweight 32 }) offset
    refine held.perm ?_
    dsimp only
    rw [holds.counts]
    exact OrderStatistics.expand_tally holds.inside

theorem counts_lt (holds : Holds h slots) (countable : h.totalCount < 2 ^ 63) :
    ∀ count ∈ h.counts, count < 2 ^ 63 := by
  intro count member
  have := List.le_sum_of_mem member
  rw [← holds.consistent] at this
  omega

/-- The payload of a histogram gives its counts, to another of its configuration. -/
theorem applyToCountsZz_payload (holds : Holds h slots) (countable : h.totalCount < 2 ^ 63)
    {fresh : Histogram} (created : hdrInit lowest highest figures = .ok fresh)
    (config : fresh.config = h.config) (rest : List UInt8) :
    applyToCountsZz fresh.counts (encodeLoop (h.counts.take (countsLimit h)) ++ rest)
      (encodeLoop (h.counts.take (countsLimit h))).length = .ok h.counts := by
  have within := countsLimit_le h
  have few := countsLen_le h.valid
  have length : (h.counts.take (countsLimit h)).length = countsLimit h :=
    List.length_take_of_le (by rw [h.length_counts]; exact within)
  have short : (h.counts.take (countsLimit h)).length < 2 ^ 31 := by omega
  have applied := applyToCountsZz_encodeLoop
    (fun count member => counts_lt holds countable count (List.mem_of_mem_take member)) short
    (h.config.countsLen - countsLimit h) rest
  rwa [length, Nat.add_sub_cancel' within, take_countsLimit holds, ← config,
    ← hdrInit_counts created] at applied

theorem decodePayload_encoded
    (accepted : hdrCalculateBucketConfig lowest highest figures = .ok h.config)
    (holds : Holds h slots) (countable : h.totalCount < 2 ^ 63) {strm : zlib.Stream}
    (rest : ∀ room, (encoded h).length - SIZEOF_ENCODING_FLYWEIGHT_V1 ≤ room → ∃ ended,
      zlib.inflate strm room .Z_FINISH =
        (.Z_STREAM_END, (encoded h).drop SIZEOF_ENCODING_FLYWEIGHT_V1, ended)) :
    ∃ back, decodePayload zlib ((encoded h).take SIZEOF_ENCODING_FLYWEIGHT_V1) strm = .ok back ∧
      ReadBack back h slots := by
  have bounded := payload_length_le h
  have header := header_encodingFlyweight h (encodeLoop (h.counts.take (countsLimit h))).length []
  rw [List.append_nil] at header
  rw [encoded_length, Nat.add_sub_cancel_left, encoded_drop] at rest
  rw [encoded_take]
  generalize encodingFlyweight h (encodeLoop (h.counts.take (countsLimit h))).length = flyweight
    at header ⊢
  obtain ⟨keptLowest, keptHighest, keptFigures⟩ := arguments_kept accepted
  obtain ⟨fresh, created, config⟩ := hdrInit_of_config accepted
  have cookie : getCookieBase (be32toh flyweight 0) = V2_ENCODING_COOKIE := by
    rw [header.cookie]
    decide
  have limit : (be32toh flyweight 4).toInt =
      (encodeLoop (h.counts.take (countsLimit h))).length := by
    rw [header.length, ← BitVec.ofInt_natCast, BitVec.toInt_ofInt]
    exact Int.bmod_eq_of_le (by omega) (by omega)
  have arguments : hdrInit (Int64.ofBitVec (be64toh flyweight 16))
      (Int64.ofBitVec (be64toh flyweight 24)) (Int32.ofBitVec (be32toh flyweight 12)) =
        .ok fresh := by
    rw [header.lowest, header.highest, header.figures, keptLowest, keptHighest, keptFigures,
      created]
  obtain ⟨ended, inflated⟩ := rest _ (Nat.le_refl _)
  have counted := applyToCountsZz_payload holds countable created config
  unfold decodePayload
  simp only [cookie, ne_eq, not_true_eq_false, if_false, arguments, limit, Int.toNat_natCast,
    inflated]
  rw [if_neg (by omega)]
  split
  next rc refused =>
    rw [limit, Int.toNat_natCast, counted] at refused
    cases refused
  next counts applied =>
    have same := applied
    rw [limit, Int.toNat_natCast, counted] at same
    obtain rfl : h.counts = counts := Except.ok.inj same
    exact ⟨_, rfl, holds_decoded config holds header _⟩

/-- The octets of `hdr_encode_compressed` around what zlib made. -/
def frame (data : List UInt8) : List UInt8 :=
  htobe (V2_COMPRESSION_COOKIE ||| 0x10) ++ htobe (BitVec.ofNat 32 data.length) ++ data

theorem frame_length (data : List UInt8) :
    (frame data).length = SIZEOF_COMPRESSION_FLYWEIGHT + data.length := by
  simp [frame, SIZEOF_COMPRESSION_FLYWEIGHT]
  omega

theorem frame_compressedLength {data : List UInt8} (fits : data.length < 2 ^ 31)
    (rest : List UInt8) : (be32toh (frame data ++ rest) 4).toInt = data.length := by
  simp only [frame, List.append_assoc]
  change (be32toh _ (32 / 8 + 0)).toInt = _
  rw [be32toh_skip, be32toh_head, ← BitVec.ofInt_natCast, BitVec.toInt_ofInt]
  exact Int.bmod_eq_of_le (by omega) (by omega)

theorem frame_drop (data rest : List UInt8) :
    (frame data ++ rest).drop SIZEOF_COMPRESSION_FLYWEIGHT = data ++ rest := by
  simp only [frame, List.append_assoc]
  rw [← List.append_assoc, List.drop_left' (by simp [SIZEOF_COMPRESSION_FLYWEIGHT])]

/-- What is decoded of an encoded histogram, whatever octets follow it. -/
theorem hdrDecodeCompressedV2_frame (documented : zlib.Documented)
    (accepted : hdrCalculateBucketConfig lowest highest figures = .ok h.config)
    (holds : Holds h slots) (countable : h.totalCount < 2 ^ 63) {data : List UInt8}
    (compressed : zlib.compress (encoded h) = some data) (fits : data.length < 2 ^ 31)
    (rest : List UInt8) :
    ∃ back, hdrDecodeCompressedV2 zlib (frame data ++ rest) = .ok back ∧
      ReadBack back h slots := by
  have source := encoded_length h
  have some_payload := payload_length_pos h
  have more : SIZEOF_ENCODING_FLYWEIGHT_V1 < (encoded h).length := by omega
  obtain ⟨strm, first, second⟩ := documented.inflates compressed (by decide) more
  have header : ((encoded h).take SIZEOF_ENCODING_FLYWEIGHT_V1).length =
      SIZEOF_ENCODING_FLYWEIGHT_V1 := List.length_take_of_le (by omega)
  have inside : ¬ ((be32toh (frame data ++ rest) 4).toInt < 0 ∨
      ((frame data ++ rest).length - SIZEOF_COMPRESSION_FLYWEIGHT : ℕ) <
        (be32toh (frame data ++ rest) 4).toInt) := by
    rw [frame_compressedLength fits, List.length_append, frame_length]
    omega
  obtain ⟨back, decodes, readBack⟩ := decodePayload_encoded accepted holds countable second
  refine ⟨back, ?_, readBack⟩
  rw [hdrDecodeCompressedV2]
  dsimp only
  rw [if_neg inside, frame_compressedLength fits, frame_drop, Int.toNat_natCast, List.take_left,
    first]
  dsimp only
  rw [if_neg (by omega), decodes]

theorem hdrEncodeCompressed_eq_ok {buffer : List UInt8}
    (encodes : hdrEncodeCompressed zlib h = .ok buffer) :
    ∃ data, zlib.compress (encoded h) = some data ∧ buffer = frame data := by
  unfold hdrEncodeCompressed at encodes
  split at encodes
  · cases encodes
  next data compressed => exact ⟨data, compressed, (Except.ok.inj encodes).symm⟩

theorem compressed_fits (documented : zlib.Documented) {data : List UInt8}
    (compressed : zlib.compress (encoded h) = some data) : data.length < 2 ^ 31 := by
  have source := encoded_length h
  have payload := payload_length_le h
  unfold SIZEOF_ENCODING_FLYWEIGHT_V1 at source
  have bounded := documented.bounded compressed
  have modest := documented.modest (encoded h).length
  omega

theorem hdrDecodeCompressed_frame (documented : zlib.Documented) (older : Older)
    (accepted : hdrCalculateBucketConfig lowest highest figures = .ok h.config)
    (holds : Holds h slots) (countable : h.totalCount < 2 ^ 63) {buffer : List UInt8}
    (encodes : hdrEncodeCompressed zlib h = .ok buffer) (rest : List UInt8) :
    ∃ back, ReadBack back h slots ∧ ∀ histogram : Option Histogram,
      hdrDecodeCompressed zlib older (buffer ++ rest) histogram =
        .ok (histogram.elim back fun histogram => (histogram.hdrAdd back).2) := by
  obtain ⟨data, compressed, rfl⟩ := hdrEncodeCompressed_eq_ok encodes
  obtain ⟨back, decodes, readBack⟩ := hdrDecodeCompressedV2_frame documented accepted holds
    countable compressed (compressed_fits documented compressed) rest
  refine ⟨back, readBack, fun histogram => ?_⟩
  have cookie : getCookieBase (be32toh (frame data ++ rest) 0) = V2_COMPRESSION_COOKIE := by
    simp only [frame, List.append_assoc, be32toh_head]
    decide
  have long : ¬ (frame data ++ rest).length < SIZEOF_COMPRESSION_FLYWEIGHT := by
    rw [List.length_append, frame_length]
    omega
  rw [hdrDecodeCompressed, if_neg long, cookie]
  dsimp only
  rw [if_neg (by decide), if_neg (by decide), if_pos rfl, decodes]
  cases histogram <;> rfl

/-- What is decoded of the text of a histogram. -/
theorem hdrLogDecode_encode (documented : zlib.Documented) (older : Older)
    (accepted : hdrCalculateBucketConfig lowest highest figures = .ok h.config)
    (holds : Holds h slots) (countable : h.totalCount < 2 ^ 63) {text : List UInt8}
    (encodes : hdrLogEncode zlib h = .ok text) :
    ∃ back, ReadBack back h slots ∧ ∀ histogram : Option Histogram,
      hdrLogDecode zlib older text histogram =
        .ok (histogram.elim back fun histogram => (histogram.hdrAdd back).2) := by
  unfold hdrLogEncode at encodes
  split at encodes
  · cases encodes
  next compressed encodesCompressed =>
    obtain ⟨data, _, rfl⟩ := hdrEncodeCompressed_eq_ok encodesCompressed
    have nonempty : frame data ≠ [] := by
      refine List.ne_nil_of_length_pos ?_
      rw [frame_length]
      exact Nat.lt_of_lt_of_le (by decide) (Nat.le_add_right ..)
    obtain ⟨same, encoded64, decodes64⟩ := hdrBase64Decode_encode nonempty
    obtain rfl : same = text := Except.ok.inj (encoded64.symm.trans encodes)
    obtain ⟨back, readBack, decodes⟩ := hdrDecodeCompressed_frame documented older accepted holds
      countable encodesCompressed (padding (frame data).length)
    refine ⟨back, readBack, fun histogram => ?_⟩
    rw [hdrLogDecode, decodes64]
    exact decodes histogram

/-- A zlib that compresses one source, with the bound of the real one. -/
def oneStream (source dest : List UInt8) : Zlib where
  compress := fun octets => if octets = source then some dest else none
  compressBound := fun sourceLen =>
    sourceLen + sourceLen >>> 12 + sourceLen >>> 14 + sourceLen >>> 25 + 13
  Stream := List UInt8
  inflateInit := fun octets => if octets = dest then source else []
  inflate := fun left size flush => match flush with
    | .Z_SYNC_FLUSH => (if left = [] then .failed else .Z_OK, left.take size, left.drop size)
    | .Z_FINISH =>
      (if left ≠ [] ∧ left.length ≤ size then .Z_STREAM_END else .failed, left.take size,
        left.drop size)

theorem oneStream_compress (source dest : List UInt8) :
    (oneStream source dest).compress source = some dest := if_pos rfl

theorem oneStream_documented {source dest : List UInt8}
    (bounded : dest.length ≤ (oneStream source dest).compressBound source.length) :
    (oneStream source dest).Documented where
  bounded := by
    intro octets made compressed
    obtain ⟨rfl, same⟩ := Option.ite_none_right_eq_some.mp compressed
    obtain rfl : dest = made := Option.some.inj same
    exact bounded
  modest := by
    intro sourceLen
    simp only [oneStream, Nat.shiftRight_eq_div_pow]
    omega
  inflates := by
    intro octets made size compressed positive less
    obtain ⟨rfl, same⟩ := Option.ite_none_right_eq_some.mp compressed
    obtain rfl : dest = made := Option.some.inj same
    have some_left : octets ≠ [] := List.ne_nil_of_length_pos (by omega)
    have more : octets.drop size ≠ [] := List.ne_nil_of_length_pos (by rw [List.length_drop]; omega)
    refine ⟨octets.drop size, ?_, fun room enough => ⟨(octets.drop size).drop room, ?_⟩⟩
    · simp only [oneStream, if_true, if_neg some_left]
    · have whole : (octets.drop size).length ≤ room := by rwa [List.length_drop]
      simp only [oneStream, if_pos (And.intro more whole), List.take_of_length_le whole]

/-- What zlib makes of the latencies below. -/
def latencyStream : List UInt8 :=
  [120, 156, 147, 105, 153, 44, 204, 192, 192, 192, 198, 0, 1, 204, 80, 154, 17, 68, 92, 155, 188,
    132, 193, 254, 3, 68, 224, 51, 51, 211, 74, 109, 22, 0, 117, 12, 6, 93]

/-- `HISTFAAAACZ4nJNpmSzMwMDAxgABzFCaEURcm7yEwf4DROAzM9NKbRYAdQwGXQ==`. -/
def latencyText : List UInt8 :=
  [72, 73, 83, 84, 70, 65, 65, 65, 65, 67, 90, 52, 110, 74, 78, 112, 109, 83, 122, 77, 119, 77, 68,
    65, 120, 103, 65, 66, 122, 70, 67, 97, 69, 85, 82, 99, 109, 55, 121, 69, 119, 102, 52, 68, 82, 79,
    65, 122, 77, 57, 78, 75, 98, 82, 89, 65, 100, 81, 119, 71, 88, 81, 61, 61]

/-- A histogram of three latencies, its text, and the zlib for it. -/
structure ThreeLatencies (fresh h : Histogram) : Prop where
  created : hdrInit 1 3600000000 3 = .ok fresh
  ran : Machine.run recordValues.step fresh [(250, 1), (4000, 2)] = some (h, [true, true])
  answers : Answers h [250, 4000, 4000]
  encodes : hdrLogEncode (oneStream (encoded h) latencyStream) h = .ok latencyText
  documented : (oneStream (encoded h) latencyStream).Documented

theorem exists_threeLatencies : ∃ fresh h, ThreeLatencies fresh h := by
  obtain ⟨fresh, created, config⟩ := hdrInit_of_config latency_config
  obtain ⟨h, ran, _, answers⟩ :=
    recordValues_appends.run_answers created [(250, 1), (4000, 2)] (by decide)
      (by rw [config]; decide)
  rw [config] at ran answers
  have compressed : hdrEncodeCompressed (oneStream (encoded h) latencyStream) h =
      .ok (frame latencyStream) := by
    rw [hdrEncodeCompressed, oneStream_compress]
    rfl
  have bounded : latencyStream.length ≤
      (oneStream (encoded h) latencyStream).compressBound (encoded h).length := by
    have short : latencyStream.length ≤ 40 + 13 := by decide
    dsimp only [oneStream]
    rw [encoded_length]
    unfold SIZEOF_ENCODING_FLYWEIGHT_V1
    omega
  refine ⟨fresh, h, created, ran, answers, ?_, oneStream_documented bounded⟩
  rw [hdrLogEncode, compressed]
  decide

/-- No decoders of older formats. -/
def noOlder : Older := ⟨fun _ => .error .undefined, fun _ => .error .undefined⟩

/-- The values that recordings count. -/
def valuesOf (c : BucketConfig) (calls : List (ℤ × ℕ)) : List ℕ :=
  calls.flatMap (recordValues.values c)

/-- The text of a histogram that recorded a run. -/
def Logged (zlib : Zlib) (fresh : Histogram) (calls : List (ℤ × ℕ)) (text : List UInt8) : Prop :=
  (∀ call ∈ calls, 0 < call.2) ∧ ∃ h replies,
    Machine.run recordValues.step fresh calls = some (h, replies) ∧
    h.totalCount < 2 ^ 63 ∧ hdrLogEncode zlib h = .ok text

/-- `hdr_log_decode` of one text after the other, into one histogram. -/
def decodeAll (zlib : Zlib) (older : Older) :
    List (List UInt8) → Option Histogram → Except Failure (Option Histogram)
  | [], histogram => .ok histogram
  | text :: rest, histogram =>
    match hdrLogDecode zlib older text histogram with
    | .error r => .error r
    | .ok histogram => decodeAll zlib older rest (some histogram)

theorem Logged.decodes {fresh : Histogram} (documented : zlib.Documented) (older : Older)
    (created : hdrInit lowest highest figures = .ok fresh) {calls : List (ℤ × ℕ)}
    {text : List UInt8} (logged : Logged zlib fresh calls text) :
    ∃ back, back.config = fresh.config ∧
      Holds back (slotsOf fresh.config (valuesOf fresh.config calls)) ∧
      ∀ histogram : Option Histogram, hdrLogDecode zlib older text histogram =
        .ok (histogram.elim back fun histogram => (histogram.hdrAdd back).2) := by
  obtain ⟨positive, h, replies, ran, countable, encodes⟩ := logged
  obtain ⟨accepted, empty⟩ := hdrInit_spec created
  obtain ⟨same, ranSame, config, holds⟩ := recordValues_appends.run empty calls positive
  obtain ⟨rfl, _⟩ := Prod.mk.inj (Option.some.inj (ran.symm.trans ranSame))
  rw [List.nil_append] at holds
  obtain ⟨back, readBack, decodes⟩ := hdrLogDecode_encode documented older
    (accepted.trans (congrArg _ config.symm)) holds countable encodes
  exact ⟨back, readBack.config.trans config, readBack.holds, decodes⟩

theorem decodeAll_holds {fresh : Histogram} (documented : zlib.Documented) (older : Older)
    (created : hdrInit lowest highest figures = .ok fresh) {runs : List (List (ℤ × ℕ))}
    {texts : List (List UInt8)} (logged : List.Forall₂ (Logged zlib fresh) runs texts)
    {target : Histogram} (config : target.config = fresh.config) {values : List ℕ}
    (holds : Holds target (slotsOf fresh.config values)) :
    ∃ merged, decodeAll zlib older texts (some target) = .ok (some merged) ∧
      merged.config = fresh.config ∧
      Holds merged (slotsOf fresh.config (values ++ valuesOf fresh.config runs.flatten)) := by
  induction logged generalizing target values with
  | nil => exact ⟨target, rfl, config, by simpa [valuesOf] using holds⟩
  | cons first _ ih =>
    obtain ⟨back, backConfig, backHolds, decodes⟩ := first.decodes documented older created
    obtain ⟨sum, added, sumConfig, sumHolds⟩ :=
      HdrMerge.hdrAdd_same holds backHolds (backConfig.trans config.symm)
    rw [slotsOf, slotsOf, ← List.map_append, ← slotsOf] at sumHolds
    obtain ⟨merged, decodesAll, mergedConfig, mergedHolds⟩ :=
      ih (sumConfig.trans config) sumHolds
    refine ⟨merged, ?_, mergedConfig, ?_⟩
    · rw [decodeAll, decodes]
      dsimp only [Option.elim]
      rw [added]
      exact decodesAll
    · rwa [List.append_assoc, valuesOf, valuesOf, ← List.flatMap_append,
        ← List.flatten_cons] at mergedHolds

theorem decodeAll_logged {fresh : Histogram} (documented : zlib.Documented) (older : Older)
    (created : hdrInit lowest highest figures = .ok fresh) {runs : List (List (ℤ × ℕ))}
    {texts : List (List UInt8)} (logged : List.Forall₂ (Logged zlib fresh) runs texts)
    (nonempty : runs ≠ []) :
    ∃ merged, decodeAll zlib older texts none = .ok (some merged) ∧
      merged.config = fresh.config ∧
      Holds merged (slotsOf fresh.config (valuesOf fresh.config runs.flatten)) := by
  cases logged with
  | nil => exact absurd rfl nonempty
  | cons first rest =>
    obtain ⟨back, backConfig, backHolds, decodes⟩ := first.decodes documented older created
    obtain ⟨merged, decodesAll, config, holds⟩ :=
      decodeAll_holds documented older created rest backConfig backHolds
    rw [valuesOf, valuesOf, ← List.flatMap_append, ← List.flatten_cons, ← valuesOf] at holds
    refine ⟨merged, ?_, config, holds⟩
    rw [decodeAll, decodes]
    exact decodesAll

/-- The texts of runs, decoded one after the other, give a histogram that answers as one that
recorded all the runs, and up to `2 ^ 52` values has its percentiles. -/
theorem logs_read_back {fresh : Histogram} (documented : zlib.Documented) (older : Older)
    (created : hdrInit lowest highest figures = .ok fresh) {runs : List (List (ℤ × ℕ))}
    {texts : List (List UInt8)} (logged : List.Forall₂ (Logged zlib fresh) runs texts)
    (nonempty : runs ≠ [])
    (countable : (valuesOf fresh.config runs.flatten).length < 2 ^ 63) :
    ∃ merged, decodeAll zlib older texts none = .ok (some merged) ∧
      merged.config = fresh.config ∧ Answers merged (valuesOf fresh.config runs.flatten) ∧
      ((valuesOf fresh.config runs.flatten).length < 2 ^ 52 →
        HdrPercentiles.Percentiles merged (valuesOf fresh.config runs.flatten)) := by
  obtain ⟨merged, decodes, config, holds⟩ :=
    decodeAll_logged documented older created logged nonempty
  exact ⟨merged, decodes, config, holds.answers config countable,
    HdrPercentiles.percentiles_of_holds config holds⟩

/-- A log of one text. -/
theorem logs_read_back_latencies : ∃ fresh h merged, ThreeLatencies fresh h ∧
    decodeAll (oneStream (encoded h) latencyStream) noOlder [latencyText] none =
      .ok (some merged) ∧ Answers merged [250, 4000, 4000] := by
  obtain ⟨fresh, h, three⟩ := exists_threeLatencies
  obtain ⟨same, created, config⟩ := hdrInit_of_config latency_config
  rw [three.created] at created
  obtain rfl : fresh = same := Except.ok.inj created
  have logged : Logged (oneStream (encoded h) latencyStream) fresh [(250, 1), (4000, 2)]
      latencyText := ⟨by decide, h, _, three.ran, by rw [three.answers.total]; decide, three.encodes⟩
  obtain ⟨merged, decodes, _, answers, _⟩ := logs_read_back three.documented noOlder three.created
    (.cons logged .nil) (by decide) (by rw [config]; decide)
  rw [config] at answers
  exact ⟨fresh, h, merged, three, decodes, answers⟩

theorem frame_take (data : List UInt8) (more : ℕ) :
    (frame data).take (SIZEOF_COMPRESSION_FLYWEIGHT + more) =
      htobe (V2_COMPRESSION_COOKIE ||| 0x10) ++
        (htobe (BitVec.ofNat 32 data.length) ++ data.take more) := by
  have header : (htobe (V2_COMPRESSION_COOKIE ||| 0x10) ++
      htobe (BitVec.ofNat 32 data.length)).length = SIZEOF_COMPRESSION_FLYWEIGHT := by
    simp [SIZEOF_COMPRESSION_FLYWEIGHT]
  rw [frame, ← header, List.take_length_add_append, List.append_assoc]

theorem frame_take_refused (older : Older) {data : List UInt8} (fits : data.length < 2 ^ 31) {k : ℕ}
    (cut : k < (frame data).length) (histogram : Option Histogram) :
    hdrDecodeCompressed zlib older ((frame data).take k) histogram = .error (.error EINVAL) := by
  rw [frame_length] at cut
  have taken : ((frame data).take k).length = k :=
    List.length_take_of_le (by rw [frame_length]; omega)
  rw [hdrDecodeCompressed, taken]
  split
  · rfl
  next long =>
    obtain ⟨more, rfl⟩ := Nat.exists_eq_add_of_le (Nat.not_lt.mp long)
    have cookie :
        getCookieBase (be32toh ((frame data).take (SIZEOF_COMPRESSION_FLYWEIGHT + more)) 0) =
          V2_COMPRESSION_COOKIE := by
      rw [frame_take, be32toh_head]
      decide
    have length : (be32toh ((frame data).take (SIZEOF_COMPRESSION_FLYWEIGHT + more)) 4).toInt =
        data.length := by
      rw [frame_take]
      change (be32toh _ (32 / 8 + 0)).toInt = _
      rw [be32toh_skip, be32toh_head, ← BitVec.ofInt_natCast, BitVec.toInt_ofInt]
      exact Int.bmod_eq_of_le (by omega) (by omega)
    rw [cookie]
    dsimp only
    rw [if_neg (by decide), if_neg (by decide), if_pos rfl, hdrDecodeCompressedV2]
    dsimp only
    rw [length, taken, if_pos (.inr (by omega))]
    rfl

/-- A text that is cut off anywhere is refused as invalid. -/
theorem truncated_text_refused (documented : zlib.Documented) (older : Older) {text : List UInt8}
    (encodes : hdrLogEncode zlib h = .ok text) {k : ℕ} (cut : k < text.length)
    (histogram : Option Histogram) :
    ∃ r : ℤ, (r = EINVAL ∨ r = -EINVAL) ∧
      hdrLogDecode zlib older (text.take k) histogram = .error (.error r) := by
  unfold hdrLogEncode at encodes
  split at encodes
  · cases encodes
  next compressed encodesCompressed =>
    obtain ⟨data, made, rfl⟩ := hdrEncodeCompressed_eq_ok encodesCompressed
    have fits := compressed_fits documented made
    obtain ⟨decoded, length⟩ := base64DecodeLoop_encode (frame data) (Nat.le_refl _)
    rw [hdrBase64Encode, if_neg (fun different => different rfl)] at encodes
    obtain rfl := Except.ok.inj encodes
    unfold hdrBase64EncodedLen at cut ⊢
    generalize base64EncodeLoop (frame data) (((frame data).length + 2) / 3 * 4) = text at *
    have taken : (text.take k).length = k := List.length_take_of_le (Nat.le_of_lt cut)
    have bits : k &&& 3 = k % 4 := Nat.and_two_pow_sub_one_eq_mod k 2
    rw [hdrLogDecode, hdrBase64Decode, taken, bits]
    by_cases blocks : 4 ≤ k ∧ k % 4 = 0
    · obtain ⟨m, rfl⟩ : ∃ m, k = 4 * m := ⟨k / 4, by omega⟩
      have shorter : 3 * m < (frame data).length := by omega
      have same : base64DecodeLoop (text.take (4 * m)) = (frame data).take (3 * m) := by
        rw [base64DecodeLoop_take, decoded, List.take_append_of_le_length (Nat.le_of_lt shorter)]
      rw [if_neg (by unfold hdrBase64DecodedLen; omega), same]
      exact ⟨EINVAL, .inl rfl, frame_take_refused older fits shorter histogram⟩
    · rw [if_pos (by omega)]
      exact ⟨-EINVAL, .inr rfl, rfl⟩

/-- The text without its last character, and without its last block. -/
theorem truncated_text_refused_latencies : ∃ fresh h, ThreeLatencies fresh h ∧
    (∃ r : ℤ, (r = EINVAL ∨ r = -EINVAL) ∧
      hdrLogDecode (oneStream (encoded h) latencyStream) noOlder (latencyText.take 63) none =
        .error (.error r)) ∧
    ∃ r : ℤ, (r = EINVAL ∨ r = -EINVAL) ∧
      hdrLogDecode (oneStream (encoded h) latencyStream) noOlder (latencyText.take 60) none =
        .error (.error r) := by
  obtain ⟨fresh, h, three⟩ := exists_threeLatencies
  exact ⟨fresh, h, three,
    truncated_text_refused three.documented noOlder three.encodes (by decide) none,
    truncated_text_refused three.documented noOlder three.encodes (by decide) none⟩

end YcsbCloud.Guarantees.HdrHistogramLog
