import YcsbCloud.Library.LittleEndian
import YcsbCloud.Source.Strings

/-!
# Fixed-width integers of `lib/coding.h`

Both branches of every routine are kept: the `memcpy` branch that
`KLittleEndian` selects on the machines the benchmark is built for, and the
portable shift branch. A buffer is its octets, whatever the sign of `char`.
-/
namespace YcsbCloud.Source.Coding
open Library

/-- `#define KLittleEndian true`. -/
def kLittleEndian : Bool := true

def encodeFixed32 (littleEndian : Bool) (value : UInt32) : Bytes :=
  if littleEndian then LittleEndian.octets 4 value.toNat
  else [(value &&& 0xff).toUInt8, ((value >>> 8) &&& 0xff).toUInt8,
    ((value >>> 16) &&& 0xff).toUInt8, ((value >>> 24) &&& 0xff).toUInt8]

def encodeFixed64 (littleEndian : Bool) (value : UInt64) : Bytes :=
  if littleEndian then LittleEndian.octets 8 value.toNat
  else [(value &&& 0xff).toUInt8, ((value >>> 8) &&& 0xff).toUInt8,
    ((value >>> 16) &&& 0xff).toUInt8, ((value >>> 24) &&& 0xff).toUInt8,
    ((value >>> 32) &&& 0xff).toUInt8, ((value >>> 40) &&& 0xff).toUInt8,
    ((value >>> 48) &&& 0xff).toUInt8, ((value >>> 56) &&& 0xff).toUInt8]

def decodeFixed32 (littleEndian : Bool) (ptr : Bytes) : UInt32 :=
  if littleEndian then UInt32.ofNat (LittleEndian.value (ptr.take 4))
  else (ptr.getD 0 0).toUInt32 ||| ((ptr.getD 1 0).toUInt32 <<< 8) |||
    ((ptr.getD 2 0).toUInt32 <<< 16) ||| ((ptr.getD 3 0).toUInt32 <<< 24)

def decodeFixed64 (littleEndian : Bool) (ptr : Bytes) : UInt64 :=
  if littleEndian then UInt64.ofNat (LittleEndian.value (ptr.take 8))
  else
    let lo := (decodeFixed32 littleEndian ptr).toUInt64
    let hi := (decodeFixed32 littleEndian (ptr.drop 4)).toUInt64
    (hi <<< 32) ||| lo

def putFixed32 (littleEndian : Bool) (dst : Bytes) (value : UInt32) : Bytes :=
  dst ++ encodeFixed32 littleEndian value

def putFixed64 (littleEndian : Bool) (dst : Bytes) (value : UInt64) : Bytes :=
  dst ++ encodeFixed64 littleEndian value

@[simp] theorem encodeFixed64_length (value : UInt64) :
    (encodeFixed64 kLittleEndian value).length = 8 := by
  simp [encodeFixed64, kLittleEndian]

/-- Decoding consumes exactly the eight octets the encoder wrote. -/
theorem decodeFixed64_append (value : UInt64) (tail : Bytes) :
    decodeFixed64 kLittleEndian (encodeFixed64 kLittleEndian value ++ tail) = value := by
  have bound : value.toNat < 256 ^ 8 := value.toNat_lt
  simp only [decodeFixed64, encodeFixed64, kLittleEndian, if_true]
  rw [List.take_left' (LittleEndian.octets_length 8 _), LittleEndian.value_octets_of_lt _ _ bound,
    UInt64.ofNat_toNat]

/-- Any eight octets are the encoding of the number they decode to. -/
theorem encodeFixed64_decode (ptr : Bytes) (room : 8 ≤ ptr.length) :
    encodeFixed64 kLittleEndian (decodeFixed64 kLittleEndian ptr) = ptr.take 8 := by
  have bound : LittleEndian.value (ptr.take 8) < 256 ^ 8 := LittleEndian.value_take_lt ptr 8
  simp only [decodeFixed64, encodeFixed64, kLittleEndian, if_true]
  rw [UInt64.toNat_ofNat_of_lt' bound, LittleEndian.octets_value_take room]

/-- A masked number is converted to its low octet. -/
theorem octet32 (x : UInt32) : (x &&& 0xff).toUInt8 = UInt8.ofNat x.toNat := by
  apply UInt8.toNat_inj.mp
  rw [UInt32.toNat_toUInt8, UInt32.toNat_and, UInt8.toNat_ofNat']
  exact (congrArg (· % 256) (Nat.and_two_pow_sub_one_eq_mod x.toNat 8)).trans (Nat.mod_mod _ _)

theorem encodeFixed32_branches (value : UInt32) :
    encodeFixed32 false value = encodeFixed32 true value := by
  simp only [encodeFixed32, LittleEndian.octets, octet32, Bool.false_eq_true, if_false, if_true]
  simp only [UInt32.toNat_shiftRight, Nat.shiftRight_eq_div_pow, Nat.div_div_eq_div_mul]
  rfl

theorem octet64 (x : UInt64) : (x &&& 0xff).toUInt8 = UInt8.ofNat x.toNat := by
  apply UInt8.toNat_inj.mp
  rw [UInt64.toNat_toUInt8, UInt64.toNat_and, UInt8.toNat_ofNat']
  exact (congrArg (· % 256) (Nat.and_two_pow_sub_one_eq_mod x.toNat 8)).trans (Nat.mod_mod _ _)

theorem encodeFixed64_branches (value : UInt64) :
    encodeFixed64 false value = encodeFixed64 true value := by
  simp only [encodeFixed64, LittleEndian.octets, octet64, Bool.false_eq_true, if_false, if_true]
  simp only [UInt64.toNat_shiftRight, Nat.shiftRight_eq_div_pow, Nat.div_div_eq_div_mul]
  rfl

/-- An octet shifted within 32 bits loses nothing. -/
theorem toNat_octet_shift (b : UInt8) (k : UInt32) (small : k.toNat ≤ 24) :
    (b.toUInt32 <<< k).toNat = b.toNat <<< k.toNat := by
  have octet := b.toNat_lt
  have power : 2 ^ k.toNat ≤ 2 ^ 24 := Nat.pow_le_pow_right two_pos small
  have fits : b.toNat * 2 ^ k.toNat < 2 ^ 32 :=
    calc b.toNat * 2 ^ k.toNat ≤ b.toNat * 2 ^ 24 := Nat.mul_le_mul_left _ power
      _ < 2 ^ 32 := by omega
  rw [UInt32.toNat_shiftLeft, UInt8.toNat_toUInt32, Nat.mod_eq_of_lt (by omega : k.toNat < 32),
    Nat.shiftLeft_eq, Nat.mod_eq_of_lt fits]

/-- The octets are put together as the representation does it. -/
theorem decodeFixed32_branches (ptr : Bytes) (room : 4 ≤ ptr.length) :
    decodeFixed32 false ptr = decodeFixed32 true ptr := by
  match ptr, room with
  | b₀ :: b₁ :: b₂ :: b₃ :: rest, _ =>
    have image : LittleEndian.value [b₀, b₁, b₂, b₃] =
        b₀.toNat ||| b₁.toNat <<< 8 ||| b₂.toNat <<< 16 ||| b₃.toNat <<< 24 := by
      have second : LittleEndian.value [b₀, b₁] = b₀.toNat ||| b₁.toNat <<< 8 :=
        LittleEndian.value_concat [b₀] b₁
      have third : LittleEndian.value [b₀, b₁, b₂] =
          LittleEndian.value [b₀, b₁] ||| b₂.toNat <<< 16 := LittleEndian.value_concat [b₀, b₁] b₂
      rw [← second, ← third]
      exact LittleEndian.value_concat [b₀, b₁, b₂] b₃
    have bound : LittleEndian.value [b₀, b₁, b₂, b₃] < 256 ^ 4 := LittleEndian.value_lt _
    apply UInt32.toNat_inj.mp
    simp only [decodeFixed32, Bool.false_eq_true, if_false, if_true, List.getD_cons_zero,
      List.getD_cons_succ, List.take_succ_cons, List.take_zero]
    rw [UInt32.toNat_ofNat_of_lt' bound, image]
    simp only [UInt32.toNat_or, UInt8.toNat_toUInt32]
    rw [toNat_octet_shift b₁ 8 (by decide), toNat_octet_shift b₂ 16 (by decide),
      toNat_octet_shift b₃ 24 (by decide)]
    rfl

/-- The high half is shifted above the low one. -/
theorem decodeFixed64_branches (ptr : Bytes) (room : 8 ≤ ptr.length) :
    decodeFixed64 false ptr = decodeFixed64 true ptr := by
  have behind : 4 ≤ (ptr.drop 4).length := by
    rw [List.length_drop]
    omega
  have low : LittleEndian.value (ptr.take 4) < 256 ^ 4 := LittleEndian.value_take_lt ptr 4
  have high : LittleEndian.value ((ptr.drop 4).take 4) < 256 ^ 4 := LittleEndian.value_take_lt _ 4
  have whole : LittleEndian.value (ptr.take 8) < 256 ^ 8 := LittleEndian.value_take_lt ptr 8
  have halves : LittleEndian.value (ptr.take 8) =
      LittleEndian.value (ptr.take 4) ||| LittleEndian.value ((ptr.drop 4).take 4) <<< 32 := by
    rw [show 8 = 4 + 4 from rfl, List.take_add, LittleEndian.value_append_or,
      List.length_take_of_le (by omega)]
  have fits : LittleEndian.value ((ptr.drop 4).take 4) <<< 32 < 2 ^ 64 := by
    rw [Nat.shiftLeft_eq]
    omega
  apply UInt64.toNat_inj.mp
  simp only [decodeFixed64, Bool.false_eq_true, if_false, if_true]
  rw [decodeFixed32_branches ptr (by omega), decodeFixed32_branches (ptr.drop 4) behind]
  simp only [decodeFixed32, if_true]
  rw [UInt64.toNat_or, UInt64.toNat_shiftLeft, UInt32.toNat_toUInt64, UInt32.toNat_toUInt64,
    UInt32.toNat_ofNat_of_lt' low, UInt32.toNat_ofNat_of_lt' high,
    UInt64.toNat_ofNat_of_lt' whole, halves]
  rw [show (32 : UInt64).toNat % 64 = 32 from rfl, Nat.mod_eq_of_lt fits, Nat.or_comm]

/-- Either branch writes the octets of the number from the low end up. -/
theorem encodeFixed32_eq (littleEndian : Bool) (value : UInt32) :
    encodeFixed32 littleEndian value = LittleEndian.octets 4 value.toNat := by
  cases littleEndian with
  | true => rfl
  | false => exact encodeFixed32_branches value

theorem encodeFixed64_eq (littleEndian : Bool) (value : UInt64) :
    encodeFixed64 littleEndian value = LittleEndian.octets 8 value.toNat := by
  cases littleEndian with
  | true => rfl
  | false => exact encodeFixed64_branches value

/-- On either branch any four octets are the encoding of the number they decode to. -/
theorem encodeFixed32_decodeFixed32 (littleEndian : Bool) (ptr : Bytes) (room : 4 ≤ ptr.length) :
    encodeFixed32 littleEndian (decodeFixed32 littleEndian ptr) = ptr.take 4 := by
  have bound : LittleEndian.value (ptr.take 4) < 256 ^ 4 := LittleEndian.value_take_lt ptr 4
  have decoded : decodeFixed32 littleEndian ptr =
      UInt32.ofNat (LittleEndian.value (ptr.take 4)) := by
    cases littleEndian with
    | true => rfl
    | false => exact decodeFixed32_branches ptr room
  rw [encodeFixed32_eq, decoded, UInt32.toNat_ofNat_of_lt' bound,
    LittleEndian.octets_value_take room]

theorem encodeFixed64_decodeFixed64 (littleEndian : Bool) (ptr : Bytes) (room : 8 ≤ ptr.length) :
    encodeFixed64 littleEndian (decodeFixed64 littleEndian ptr) = ptr.take 8 := by
  cases littleEndian with
  | true => exact encodeFixed64_decode ptr room
  | false =>
    rw [encodeFixed64_branches, decodeFixed64_branches ptr room]
    exact encodeFixed64_decode ptr room

end YcsbCloud.Source.Coding
