import YcsbCloud.Source.HdrHistogram

/-!
# The encodings of `hdr_encoding.c`

Signed numbers in zig-zag groups of seven bits, and base 64. The tests of the source for
each octet in turn are one recursion on the octets that are left. A buffer that is read past
its end reads as zero: the one caller allocates nine zeros more than it reads.
-/
namespace YcsbCloud.Source.HdrEncoding
open HdrHistogram (EINVAL)

/-- The tests of `zig_zag_encode_i64` from the second octet on. -/
def encodeFrom (value : BitVec 64) : ℕ → ℕ → List UInt8
  | 0, shift => [⟨(value.sshiftRight shift).setWidth 8⟩]
  | more + 1, shift =>
    if value.sshiftRight (shift + 7) = 0 then [⟨(value.sshiftRight shift).setWidth 8⟩]
    else ⟨(value.sshiftRight shift ||| 0x80).setWidth 8⟩ :: encodeFrom value more (shift + 7)

def zigZagEncodeI64 (signedValue : BitVec 64) : List UInt8 :=
  let value := signedValue <<< 1 ^^^ signedValue.sshiftRight 63
  if value.sshiftRight 7 = 0 then [⟨value.setWidth 8⟩]
  else ⟨((value &&& 0x7F) ||| 0x80).setWidth 8⟩ :: encodeFrom value 7 7

/-- The octet at an index, as a `uint64_t`. -/
def octetAt (buffer : List UInt8) (i : ℕ) : BitVec 64 := (buffer.getD i 0).toBitVec.setWidth 64

/-- The tests of `zig_zag_decode_i64` from an octet on: the value, and the octets read. -/
def decodeFrom (buffer : List UInt8) : ℕ → ℕ → BitVec 64 → BitVec 64 × ℕ
  | 0, i, value => (value ||| octetAt buffer i <<< (7 * i), i + 1)
  | more + 1, i, value =>
    let v := octetAt buffer i
    let value := value ||| (v &&& 0x7F) <<< (7 * i)
    if v &&& 0x80 ≠ 0 then decodeFrom buffer more (i + 1) value else (value, i + 1)

def zigZagDecodeI64 (buffer : List UInt8) : BitVec 64 × ℕ :=
  let (value, bytesRead) := decodeFrom buffer 8 0 0
  (value >>> 1 ^^^ -(value &&& 1), bytesRead)

def base64Table : List UInt8 :=
  ['A', 'B', 'C', 'D', 'E', 'F', 'G', 'H', 'I', 'J', 'K', 'L', 'M',
    'N', 'O', 'P', 'Q', 'R', 'S', 'T', 'U', 'V', 'W', 'X', 'Y', 'Z',
    'a', 'b', 'c', 'd', 'e', 'f', 'g', 'h', 'i', 'j', 'k', 'l', 'm',
    'n', 'o', 'p', 'q', 'r', 's', 't', 'u', 'v', 'w', 'x', 'y', 'z',
    '0', '1', '2', '3', '4', '5', '6', '7', '8', '9', '+', '/'].map fun c => UInt8.ofNat c.toNat

/-- The character of six bits of a number of 24 bits. -/
def getBase64 (value24 shift : ℕ) : UInt8 := base64Table.getD (0x3F &&& value24 >>> shift) 0

/-- The six bits of a character. One that is not of the alphabet gives `EINVAL`. -/
def fromBase64 (c : UInt8) : ℕ :=
  if 65 ≤ c.toNat ∧ c.toNat ≤ 90 then c.toNat - 65
  else if 97 ≤ c.toNat ∧ c.toNat ≤ 122 then c.toNat - 97 + 26
  else if 48 ≤ c.toNat ∧ c.toNat ≤ 57 then c.toNat - 48 + 52
  else if c.toNat = 43 then 62
  else if c.toNat = 47 then 63
  else if c.toNat = 61 then 0
  else EINVAL

/-- `(size_t) (ceil(decoded_size / 3.0) * 4.0)`. -/
def hdrBase64EncodedLen (decodedSize : ℕ) : ℕ := (decodedSize + 2) / 3 * 4

def hdrBase64DecodedLen (encodedSize : ℕ) : ℕ := encodedSize / 4 * 3

/-- The cases of `hdr_base64_encode_block_pad` on the octets that remain. -/
def hdrBase64EncodeBlockPad : List UInt8 → List UInt8
  | [a, b] =>
    let value24 := a.toNat <<< 16 + b.toNat <<< 8
    [getBase64 value24 18, getBase64 value24 12, getBase64 value24 6, 61]
  | [a] =>
    let value24 := a.toNat <<< 16
    [getBase64 value24 18, getBase64 value24 12, 61, 61]
  | _ => []

def hdrBase64EncodeBlock (a b c : UInt8) : List UInt8 :=
  let value24 := a.toNat <<< 16 + b.toNat <<< 8 + c.toNat
  [getBase64 value24 18, getBase64 value24 12, getBase64 value24 6, getBase64 value24 0]

/-- The loop of `hdr_base64_encode` with the room that is left, and the block after it. -/
def base64EncodeLoop : List UInt8 → ℕ → List UInt8
  | a :: b :: c :: rest, room =>
    if 0 < room then hdrBase64EncodeBlock a b c ++ base64EncodeLoop rest (room - 4)
    else hdrBase64EncodeBlockPad (a :: b :: c :: rest)
  | remaining, _ => hdrBase64EncodeBlockPad remaining

def hdrBase64Encode (input : List UInt8) (outputLen : ℕ) : Except ℤ (List UInt8) :=
  if hdrBase64EncodedLen input.length ≠ outputLen then .error EINVAL
  else .ok (base64EncodeLoop input outputLen)

def hdrBase64DecodeBlock (a b c d : UInt8) : List UInt8 :=
  let value24 := fromBase64 a <<< 18 ||| fromBase64 b <<< 12 ||| fromBase64 c <<< 6 ||| fromBase64 d
  [UInt8.ofNat (value24 >>> 16 &&& 0xFF), UInt8.ofNat (value24 >>> 8 &&& 0xFF),
    UInt8.ofNat (value24 &&& 0xFF)]

/-- The loop of `hdr_base64_decode`. -/
def base64DecodeLoop : List UInt8 → List UInt8
  | a :: b :: c :: d :: rest => hdrBase64DecodeBlock a b c d ++ base64DecodeLoop rest
  | _ => []

def hdrBase64Decode (input : List UInt8) (outputLen : ℕ) : Except ℤ (List UInt8) :=
  if input.length < 4 ∨ input.length &&& 3 ≠ 0 ∨ input.length / 4 * 3 ≠ outputLen then
    .error (-EINVAL)
  else .ok (base64DecodeLoop input)

end YcsbCloud.Source.HdrEncoding
