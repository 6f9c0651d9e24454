import YcsbCloud.Library.Memory
import YcsbCloud.Source.Coding

/-!
# The `char` buffers of `lib/coding.h`

The header's routines as they act on memory: a buffer is the address of its first
`char`, a `char` is signed, and every assignment and every read of one is a conversion.
`memcpy` moves the representation of a number on a little-endian host. The octets of
`Source.Coding` are what the buffers represent.
-/
namespace YcsbCloud.Source.CharBuffer
open Library

/-- The `char` at each address. -/
abbrev Chars := Nat → Int8

/-- Conversion of an unsigned number to `char`. -/
def toChar (x : Nat) : Int8 := Int8.ofNat x

/-- `static_cast<unsigned char>`. -/
def unsignedChar (c : Int8) : UInt8 := UInt8.ofInt c.toInt

/-- `memcpy(buf, &value, size)`. -/
def copyOut (chars : Chars) (buf size value : Nat) : Chars :=
  Memory.store chars buf ((LittleEndian.octets size value).map UInt8.toInt8)

/-- `memcpy(&result, ptr, size)`. -/
def copyIn (chars : Chars) (ptr size : Nat) : Nat :=
  LittleEndian.value ((Memory.load chars ptr size).map Int8.toUInt8)

def encodeFixed32 (littleEndian : Bool) (chars : Chars) (buf : Nat) (value : UInt32) : Chars :=
  if littleEndian then copyOut chars buf 4 value.toNat
  else
    let chars := Function.update chars buf (toChar (value &&& 0xff).toNat)
    let chars := Function.update chars (buf + 1) (toChar ((value >>> 8) &&& 0xff).toNat)
    let chars := Function.update chars (buf + 2) (toChar ((value >>> 16) &&& 0xff).toNat)
    Function.update chars (buf + 3) (toChar ((value >>> 24) &&& 0xff).toNat)

def encodeFixed64 (littleEndian : Bool) (chars : Chars) (buf : Nat) (value : UInt64) : Chars :=
  if littleEndian then copyOut chars buf 8 value.toNat
  else
    let chars := Function.update chars buf (toChar (value &&& 0xff).toNat)
    let chars := Function.update chars (buf + 1) (toChar ((value >>> 8) &&& 0xff).toNat)
    let chars := Function.update chars (buf + 2) (toChar ((value >>> 16) &&& 0xff).toNat)
    let chars := Function.update chars (buf + 3) (toChar ((value >>> 24) &&& 0xff).toNat)
    let chars := Function.update chars (buf + 4) (toChar ((value >>> 32) &&& 0xff).toNat)
    let chars := Function.update chars (buf + 5) (toChar ((value >>> 40) &&& 0xff).toNat)
    let chars := Function.update chars (buf + 6) (toChar ((value >>> 48) &&& 0xff).toNat)
    Function.update chars (buf + 7) (toChar ((value >>> 56) &&& 0xff).toNat)

def decodeFixed32 (littleEndian : Bool) (chars : Chars) (ptr : Nat) : UInt32 :=
  if littleEndian then UInt32.ofNat (copyIn chars ptr 4)
  else (unsignedChar (chars ptr)).toUInt32 ||| ((unsignedChar (chars (ptr + 1))).toUInt32 <<< 8) |||
    ((unsignedChar (chars (ptr + 2))).toUInt32 <<< 16) |||
    ((unsignedChar (chars (ptr + 3))).toUInt32 <<< 24)

def decodeFixed64 (littleEndian : Bool) (chars : Chars) (ptr : Nat) : UInt64 :=
  if littleEndian then UInt64.ofNat (copyIn chars ptr 8)
  else
    let lo := (decodeFixed32 littleEndian chars ptr).toUInt64
    let hi := (decodeFixed32 littleEndian chars (ptr + 4)).toUInt64
    (hi <<< 32) ||| lo

/-- `PutFixed32`, where its `buf` is at an address and holds anything. -/
def putFixed32 (littleEndian : Bool) (chars : Chars) (buf : Nat) (dst : List Int8)
    (value : UInt32) : List Int8 :=
  dst ++ Memory.load (encodeFixed32 littleEndian chars buf value) buf 4

/-- `PutFixed64`, likewise. -/
def putFixed64 (littleEndian : Bool) (chars : Chars) (buf : Nat) (dst : List Int8)
    (value : UInt64) : List Int8 :=
  dst ++ Memory.load (encodeFixed64 littleEndian chars buf value) buf 8

/-- The cast undoes the sign: what it gives is the octet that represents the `char`. -/
theorem unsignedChar_eq (c : Int8) : unsignedChar c = c.toUInt8 := by
  have octet := c.toUInt8.toNat_lt
  have signed : c.toInt = (c.toUInt8.toNat : Int).bmod (2 ^ 8) :=
    BitVec.toInt_eq_toNat_bmod c.toBitVec
  have same := Int.bmod_emod (x := c.toUInt8.toNat) (m := 2 ^ 8)
  apply UInt8.toNat_inj.mp
  rw [unsignedChar, UInt8.ofInt, UInt8.toNat_ofNat', signed]
  omega

/-- The assignments store what represents the octets, one after the other. -/
theorem encodeFixed32_octets (littleEndian : Bool) (chars : Chars) (buf : Nat) (value : UInt32) :
    encodeFixed32 littleEndian chars buf value =
      Memory.store chars buf ((Coding.encodeFixed32 littleEndian value).map UInt8.toInt8) := by
  cases littleEndian with
  | true => rfl
  | false => rfl

theorem encodeFixed64_octets (littleEndian : Bool) (chars : Chars) (buf : Nat) (value : UInt64) :
    encodeFixed64 littleEndian chars buf value =
      Memory.store chars buf ((Coding.encodeFixed64 littleEndian value).map UInt8.toInt8) := by
  cases littleEndian with
  | true => rfl
  | false => rfl

theorem decodeFixed32_octets (littleEndian : Bool) (chars : Chars) (ptr : Nat) :
    decodeFixed32 littleEndian chars ptr =
      Coding.decodeFixed32 littleEndian ((Memory.load chars ptr 4).map Int8.toUInt8) := by
  cases littleEndian with
  | true => rfl
  | false =>
    simp only [decodeFixed32, unsignedChar_eq]
    rfl

/-- Negative `char`s are not extended. -/
example : decodeFixed32 false (fun _ => -1) 0 = 0xffffffff := by decide

theorem decodeFixed64_octets (littleEndian : Bool) (chars : Chars) (ptr : Nat) :
    decodeFixed64 littleEndian chars ptr =
      Coding.decodeFixed64 littleEndian ((Memory.load chars ptr 8).map Int8.toUInt8) := by
  cases littleEndian with
  | true => rfl
  | false =>
    simp only [decodeFixed64, decodeFixed32_octets]
    rfl

end YcsbCloud.Source.CharBuffer
