import YcsbCloud.Library.LittleEndian
import YcsbCloud.Source.HdrEncoding
import YcsbCloud.Source.HdrIterator

/-!
# Encoded histograms of `hdr_histogram_log.c`

A histogram is written as a header in network order and the zig-zag numbers of its counts,
in which a negative number stands for a run of zeros. zlib compresses both, and the result is
written in base 64. zlib is a parameter, and so are the decoders of the two older formats,
which nothing writes any more. Memory can be had.
-/
namespace YcsbCloud.Source.HdrHistogramLog
open HdrHistogram HdrEncoding Library

def HDR_COMPRESSION_COOKIE_MISMATCH : ℤ := -29999
def HDR_ENCODING_COOKIE_MISMATCH : ℤ := -29998
def HDR_DEFLATE_FAIL : ℤ := -29996
def HDR_INFLATE_FAIL : ℤ := -29994
def HDR_TRAILING_ZEROS_INVALID : ℤ := -29992
def HDR_VALUE_TRUNCATED : ℤ := -29991
def HDR_ENCODED_INPUT_TOO_LONG : ℤ := -29990

def V0_COMPRESSION_COOKIE : BitVec 32 := 0x1c849309
def V1_COMPRESSION_COOKIE : BitVec 32 := 0x1c849302
def V2_ENCODING_COOKIE : BitVec 32 := 0x1c849303
def V2_COMPRESSION_COOKIE : BitVec 32 := 0x1c849304

def getCookieBase (cookie : BitVec 32) : BitVec 32 := cookie &&& ~~~0xf0

/-- The octets of `htobe32` and `htobe64` in memory. -/
def htobe {w : ℕ} (v : BitVec w) : List UInt8 := (LittleEndian.octets (w / 8) v.toNat).reverse

/-- `be32toh` of the four octets at an offset. -/
def be32toh (image : List UInt8) (offset : ℕ) : BitVec 32 :=
  BitVec.ofNat 32 (LittleEndian.value ((image.drop offset).take 4).reverse)

/-- `be64toh` of the eight octets at an offset. -/
def be64toh (image : List UInt8) (offset : ℕ) : BitVec 64 :=
  BitVec.ofNat 64 (LittleEndian.value ((image.drop offset).take 8).reverse)

def SIZEOF_ENCODING_FLYWEIGHT_V1 : ℕ := 40
def SIZEOF_COMPRESSION_FLYWEIGHT : ℕ := 8

inductive Flush where
  | Z_SYNC_FLUSH | Z_FINISH
  deriving DecidableEq

inductive Status where
  | Z_OK | Z_STREAM_END | failed
  deriving DecidableEq

/-- What the encodings use of zlib. -/
structure Zlib where
  compress : List UInt8 → Option (List UInt8)
  compressBound : ℕ → ℕ
  Stream : Type
  /-- `inflateInit`, and the octets to read. -/
  inflateInit : List UInt8 → Stream
  /-- The status, and the octets written, of which there are at most as many as given. -/
  inflate : Stream → ℕ → Flush → Status × List UInt8 × Stream

/-- What its manual says of the calls that are made: `compress` fits its bound, which is a
thousandth and a few octets more than the source, and `inflate` gives back what was
compressed, in two parts. -/
structure Zlib.Documented (zlib : Zlib) : Prop where
  bounded : ∀ {source dest : List UInt8}, zlib.compress source = some dest →
    dest.length ≤ zlib.compressBound source.length
  modest : ∀ sourceLen, zlib.compressBound sourceLen ≤ sourceLen + sourceLen / 1000 + 13
  inflates : ∀ {source dest : List UInt8} {size : ℕ}, zlib.compress source = some dest →
    0 < size → size < source.length →
    ∃ strm, zlib.inflate (zlib.inflateInit dest) size .Z_SYNC_FLUSH =
        (.Z_OK, source.take size, strm) ∧
      ∀ room, source.length - size ≤ room → ∃ ended,
        zlib.inflate strm room .Z_FINISH = (.Z_STREAM_END, source.drop size, ended)

mutual

/-- The loop of `hdr_encode_compressed` on the counts that are left. -/
def encodeLoop : List ℕ → List UInt8
  | [] => []
  | value :: rest =>
    if value = 0 then zerosLoop 1 rest
    else zigZagEncodeI64 (BitVec.ofNat 64 value) ++ encodeLoop rest

/-- Its loop on a run of zeros, some of which it has counted, up to the next count. -/
def zerosLoop (zeros : ℕ) : List ℕ → List UInt8
  | [] => zigZagEncodeI64 (BitVec.ofInt 64 (-zeros))
  | value :: rest =>
    if 0 = value then zerosLoop (zeros + 1) rest
    else zigZagEncodeI64 (BitVec.ofInt 64 (-zeros)) ++
      (zigZagEncodeI64 (BitVec.ofNat 64 value) ++ encodeLoop rest)

end

/-- How many counts `hdr_encode_compressed` writes. -/
def countsLimit (h : Histogram) : ℕ :=
  let lenToMax := h.config.countsIndexFor h.maxValue + 1
  (if lenToMax < h.config.countsLen then lenToMax else h.config.countsLen).toNat

/-- `encoding_flyweight_v1_t` without the counts. -/
def encodingFlyweight (h : Histogram) (payloadLen : ℕ) : List UInt8 :=
  htobe (V2_ENCODING_COOKIE ||| 0x10) ++ htobe (BitVec.ofNat 32 payloadLen) ++
    htobe (BitVec.ofInt 32 h.normalizingIndexOffset) ++
    htobe (BitVec.ofNat 32 h.config.significantFigures) ++
    htobe (BitVec.ofNat 64 h.config.lowestDiscernibleValue) ++
    htobe (BitVec.ofNat 64 h.config.highestTrackableValue) ++ htobe h.conversionRatio

/-- The octets that are compressed. -/
def encoded (h : Histogram) : List UInt8 :=
  let counts := encodeLoop (h.counts.take (countsLimit h))
  encodingFlyweight h counts.length ++ counts

def hdrEncodeCompressed (zlib : Zlib) (h : Histogram) : Except ℤ (List UInt8) :=
  match zlib.compress (encoded h) with
  | none => .error HDR_DEFLATE_FAIL
  | some data =>
    .ok (htobe (V2_COMPRESSION_COOKIE ||| 0x10) ++ htobe (BitVec.ofNat 32 data.length) ++ data)

/-- A result other than zero, or a read or a write that the language leaves undefined. -/
inductive Failure where
  | error (result : ℤ) | undefined
  deriving DecidableEq

/-- The loop of `apply_to_counts_zz`: where it stopped in the data, and the counts. Each turn
reads an octet at least, so it has no more turns than there are octets. -/
def applyLoop (countsData : List UInt8) (dataLimit : ℕ) :
    ℕ → ℕ → ℕ → List ℕ → Except ℤ (ℕ × List ℕ)
  | 0, dataIndex, _, counts => .ok (dataIndex, counts)
  | turns + 1, dataIndex, countsIndex, counts =>
    if dataIndex < dataLimit ∧ countsIndex < counts.length then
      let (value, bytesRead) := zigZagDecodeI64 (countsData.drop dataIndex)
      if value.toInt < 0 then
        let zeros := -value.toInt
        if value.toInt ≤ -2 ^ 31 ∨ countsIndex + zeros > counts.length then
          .error HDR_TRAILING_ZEROS_INVALID
        else
          applyLoop countsData dataLimit turns (dataIndex + bytesRead)
            (countsIndex + zeros.toNat) counts
      else
        applyLoop countsData dataLimit turns (dataIndex + bytesRead) (countsIndex + 1)
          (counts.set countsIndex value.toNat)
    else .ok (dataIndex, counts)

/-- `apply_to_counts_zz`, with the counts it leaves. -/
def applyToCountsZz (counts : List ℕ) (countsData : List UInt8) (dataLimit : ℕ) :
    Except ℤ (List ℕ) :=
  match applyLoop countsData dataLimit dataLimit 0 0 counts with
  | .error rc => .error rc
  | .ok (dataIndex, counts) =>
    if dataIndex > dataLimit then .error HDR_VALUE_TRUNCATED
    else if dataIndex < dataLimit then .error HDR_ENCODED_INPUT_TOO_LONG
    else .ok counts

theorem applyLoop_length {countsData : List UInt8} {dataLimit turns dataIndex countsIndex : ℕ}
    {counts : List ℕ} {reached : ℕ × List ℕ}
    (applied : applyLoop countsData dataLimit turns dataIndex countsIndex counts = .ok reached) :
    reached.2.length = counts.length := by
  induction turns generalizing dataIndex countsIndex counts with
  | zero =>
    cases applied
    rfl
  | succ turns ih =>
    rw [applyLoop] at applied
    split at applied
    · dsimp only at applied
      split at applied
      · split at applied
        · cases applied
        · exact ih applied
      · rw [ih applied, List.length_set]
    · cases applied
      rfl

theorem applyToCountsZz_length {counts after : List ℕ} {countsData : List UInt8} {dataLimit : ℕ}
    (applied : applyToCountsZz counts countsData dataLimit = .ok after) :
    after.length = counts.length := by
  unfold applyToCountsZz at applied
  split at applied
  · cases applied
  next reached =>
    split at applied
    · cases applied
    · split at applied
      · cases applied
      · cases applied
        exact applyLoop_length reached

/-- What `hdr_decode_compressed_v2` sets in the histogram it made. -/
def decoded (h : Histogram) (flyweight : List UInt8) (counts : List ℕ)
    (length_counts : counts.length = h.counts.length) : Histogram :=
  { h with
    counts := counts
    length_counts := length_counts.trans h.length_counts
    normalizingIndexOffset := (be32toh flyweight 8).toInt
    conversionRatio := be64toh flyweight 32 }.hdrResetInternalCounters

/-- The part of `hdr_decode_compressed_v2` after the header, which it has read. A length that
is negative makes it write outside the array it allocates. -/
def decodePayload (zlib : Zlib) (flyweight : List UInt8) (strm : zlib.Stream) :
    Except Failure Histogram :=
  if getCookieBase (be32toh flyweight 0) ≠ V2_ENCODING_COOKIE then
    .error (.error HDR_ENCODING_COOKIE_MISMATCH)
  else
    let countsLimit := (be32toh flyweight 4).toInt
    let lowestDiscernibleValue := Int64.ofBitVec (be64toh flyweight 16)
    let highestTrackableValue := Int64.ofBitVec (be64toh flyweight 24)
    let significantFigures := Int32.ofBitVec (be32toh flyweight 12)
    match hdrInit lowestDiscernibleValue highestTrackableValue significantFigures with
    | .error rc => .error (.error rc)
    | .ok h =>
      if countsLimit < 0 then .error .undefined
      else
        match zlib.inflate strm countsLimit.toNat .Z_FINISH with
        | (.Z_STREAM_END, inflated, _) =>
          let countsArray := inflated ++ List.replicate (countsLimit.toNat + 9 - inflated.length) 0
          match applied : applyToCountsZz h.counts countsArray countsLimit.toNat with
          | .error rc => .error (.error rc)
          | .ok counts => .ok (decoded h flyweight counts (applyToCountsZz_length applied))
        | _ => .error (.error HDR_INFLATE_FAIL)

/-- `hdr_decode_compressed_v2` up to its cleanup. A header that is not all there is read before
it is written. -/
def hdrDecodeCompressedV2 (zlib : Zlib) (buffer : List UInt8) : Except Failure Histogram :=
  let compressedLength := (be32toh buffer 4).toInt
  if compressedLength < 0 ∨
      (buffer.length - SIZEOF_COMPRESSION_FLYWEIGHT : ℕ) < compressedLength then
    .error (.error EINVAL)
  else
    let data := (buffer.drop SIZEOF_COMPRESSION_FLYWEIGHT).take compressedLength.toNat
    match zlib.inflate (zlib.inflateInit data) SIZEOF_ENCODING_FLYWEIGHT_V1 .Z_SYNC_FLUSH with
    | (.Z_OK, flyweight, strm) =>
      if flyweight.length < SIZEOF_ENCODING_FLYWEIGHT_V1 then .error .undefined
      else decodePayload zlib flyweight strm
    | _ => .error (.error HDR_INFLATE_FAIL)

/-- The decoders of the formats before `V2`. -/
structure Older where
  hdrDecodeCompressedV0 : List UInt8 → Except Failure Histogram
  hdrDecodeCompressedV1 : List UInt8 → Except Failure Histogram

/-- `hdr_decode_compressed`: a histogram that is there already gets the counts of the new one. -/
def hdrDecodeCompressed (zlib : Zlib) (older : Older) (buffer : List UInt8)
    (histogram : Option Histogram) : Except Failure Histogram :=
  if buffer.length < SIZEOF_COMPRESSION_FLYWEIGHT then .error (.error EINVAL)
  else
    let compressionCookie := getCookieBase (be32toh buffer 0)
    let result :=
      if V0_COMPRESSION_COOKIE = compressionCookie then older.hdrDecodeCompressedV0 buffer
      else if V1_COMPRESSION_COOKIE = compressionCookie then older.hdrDecodeCompressedV1 buffer
      else if V2_COMPRESSION_COOKIE = compressionCookie then hdrDecodeCompressedV2 zlib buffer
      else .error (.error HDR_COMPRESSION_COOKIE_MISMATCH)
    result.map fun h => match histogram with
      | none => h
      | some histogram => (histogram.hdrAdd h).2

def hdrLogEncode (zlib : Zlib) (histogram : Histogram) : Except ℤ (List UInt8) :=
  match hdrEncodeCompressed zlib histogram with
  | .error rc => .error rc
  | .ok compressed => hdrBase64Encode compressed (hdrBase64EncodedLen compressed.length)

def hdrLogDecode (zlib : Zlib) (older : Older) (base64Histogram : List UInt8)
    (histogram : Option Histogram) : Except Failure Histogram :=
  match hdrBase64Decode base64Histogram (hdrBase64DecodedLen base64Histogram.length) with
  | .error r => .error (.error r)
  | .ok compressed => hdrDecodeCompressed zlib older compressed histogram

end YcsbCloud.Source.HdrHistogramLog
