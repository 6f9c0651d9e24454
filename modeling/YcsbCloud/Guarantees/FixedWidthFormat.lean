import YcsbCloud.Source.CharBuffer

/-!
# One format for fixed-width integers

The two branches of `lib/coding.h` write the same octets and read the same numbers.
The `memcpy` branch moves the octets of a number from the low end up, and so do the
shifts and masks of the other one. Encoding and decoding are inverse on either.
-/
namespace YcsbCloud.Guarantees.FixedWidthFormat
open Library Source Source.CharBuffer

/-- The three routines of a width. -/
structure Codec (α : Type) where
  width : Nat
  toNat : α → Nat
  encode : Bool → Chars → Nat → α → Chars
  decode : Bool → Chars → Nat → α
  put : Bool → Chars → Nat → List Int8 → α → List Int8

def fixed32 : Codec UInt32 := ⟨4, UInt32.toNat, encodeFixed32, decodeFixed32, putFixed32⟩

def fixed64 : Codec UInt64 := ⟨8, UInt64.toNat, encodeFixed64, decodeFixed64, putFixed64⟩

variable {α : Type}

/-- The `char`s of a number, from its low octet up. -/
def Codec.image (c : Codec α) (value : α) : List Int8 :=
  (LittleEndian.octets c.width (c.toNat value)).map UInt8.toInt8

/-- On both branches the routines read and write the little-endian `char`s of a number,
and nothing else. -/
structure OneFormat (c : Codec α) : Prop where
  encodes : ∀ chars buf value, c.encode true chars buf value = c.encode false chars buf value
  writes : ∀ littleEndian chars buf value,
    Memory.load (c.encode littleEndian chars buf value) buf c.width = c.image value
  frame : ∀ littleEndian chars buf value other, other < buf ∨ buf + c.width ≤ other →
    c.encode littleEndian chars buf value other = chars other
  decodes : ∀ chars ptr, c.decode true chars ptr = c.decode false chars ptr
  decode_encode : ∀ littleEndian chars buf value,
    c.decode littleEndian (c.encode littleEndian chars buf value) buf = value
  encode_decode : ∀ littleEndian chars ptr,
    c.encode littleEndian chars ptr (c.decode littleEndian chars ptr) = chars
  puts : ∀ littleEndian chars buf dst value,
    c.put littleEndian chars buf dst value = dst ++ c.image value

/-- The routines do to a buffer what routines on octets do to the octets of the buffer,
and those write and read the octets of a number from the low end up. -/
structure OnOctets (c : Codec α) (encode : Bool → α → Bytes) (decode : Bool → Bytes → α) :
    Prop where
  stores : ∀ littleEndian chars buf value, c.encode littleEndian chars buf value =
    Memory.store chars buf ((encode littleEndian value).map UInt8.toInt8)
  reads : ∀ littleEndian chars ptr, c.decode littleEndian chars ptr =
    decode littleEndian ((Memory.load chars ptr c.width).map Int8.toUInt8)
  appends : ∀ littleEndian chars buf dst value, c.put littleEndian chars buf dst value =
    dst ++ Memory.load (c.encode littleEndian chars buf value) buf c.width
  octets : ∀ littleEndian value,
    encode littleEndian value = LittleEndian.octets c.width (c.toNat value)
  inverse : ∀ littleEndian ptr, c.width ≤ ptr.length →
    encode littleEndian (decode littleEndian ptr) = ptr.take c.width
  fits : ∀ value, c.toNat value < 256 ^ c.width
  distinct : Function.Injective c.toNat

variable {c : Codec α} {encode : Bool → α → Bytes} {decode : Bool → Bytes → α}

theorem image_length (c : Codec α) (value : α) : (c.image value).length = c.width := by
  rw [Codec.image, List.length_map, LittleEndian.octets_length]

/-- Different numbers have different images. -/
theorem OnOctets.image_injective (model : OnOctets c encode decode) :
    Function.Injective c.image := by
  intro left right same
  have octets := List.map_injective_iff.mpr (fun _ _ => congrArg Int8.toUInt8) same
  have numbers := congrArg LittleEndian.value octets
  rw [LittleEndian.value_octets_of_lt _ _ (model.fits left),
    LittleEndian.value_octets_of_lt _ _ (model.fits right)] at numbers
  exact model.distinct numbers

theorem OnOctets.stored (model : OnOctets c encode decode) (littleEndian : Bool) (chars : Chars)
    (buf : Nat) (value : α) :
    c.encode littleEndian chars buf value = Memory.store chars buf (c.image value) := by
  rw [model.stores, model.octets, Codec.image]

/-- What a buffer decodes to has the image that is in the buffer. -/
theorem OnOctets.loaded (model : OnOctets c encode decode) (littleEndian : Bool) (chars : Chars)
    (ptr : Nat) :
    c.image (c.decode littleEndian chars ptr) = Memory.load chars ptr c.width := by
  have length : ((Memory.load chars ptr c.width).map Int8.toUInt8).length = c.width := by
    rw [List.length_map, Memory.load_length]
  rw [Codec.image, ← model.octets littleEndian, model.reads, model.inverse _ _ length.ge,
    List.take_of_length_le length.le, List.map_map]
  exact List.map_id _

theorem OnOctets.written (model : OnOctets c encode decode) (littleEndian : Bool) (chars : Chars)
    (buf : Nat) (value : α) :
    Memory.load (c.encode littleEndian chars buf value) buf c.width = c.image value := by
  rw [model.stored, ← image_length c value, Memory.load_store]

theorem OnOctets.oneFormat (model : OnOctets c encode decode) : OneFormat c := by
  refine ⟨?_, model.written, ?_, ?_, ?_, ?_, ?_⟩
  · intro chars buf value
    rw [model.stored, model.stored]
  · intro littleEndian chars buf value other outside
    rw [← image_length c value] at outside
    rw [model.stored, Memory.store_other _ _ _ _ outside]
  · intro chars ptr
    exact model.image_injective ((model.loaded true chars ptr).trans
      (model.loaded false chars ptr).symm)
  · intro littleEndian chars buf value
    exact model.image_injective ((model.loaded littleEndian _ buf).trans
      (model.written littleEndian chars buf value))
  · intro littleEndian chars ptr
    rw [model.stored, model.loaded, Memory.store_load]
  · intro littleEndian chars buf dst value
    rw [model.appends, model.written]

theorem fixed32_onOctets : OnOctets fixed32 Coding.encodeFixed32 Coding.decodeFixed32 where
  stores := encodeFixed32_octets
  reads := decodeFixed32_octets
  appends := fun _ _ _ _ _ => rfl
  octets := Coding.encodeFixed32_eq
  inverse := Coding.encodeFixed32_decodeFixed32
  fits := UInt32.toNat_lt
  distinct := fun _ _ => UInt32.toNat_inj.mp

theorem fixed64_onOctets : OnOctets fixed64 Coding.encodeFixed64 Coding.decodeFixed64 where
  stores := encodeFixed64_octets
  reads := decodeFixed64_octets
  appends := fun _ _ _ _ _ => rfl
  octets := Coding.encodeFixed64_eq
  inverse := Coding.encodeFixed64_decodeFixed64
  fits := UInt64.toNat_lt
  distinct := fun _ _ => UInt64.toNat_inj.mp

/-- Both widths have one little-endian format, whichever branch is compiled in. -/
theorem fixed_width_one_format : OneFormat fixed32 ∧ OneFormat fixed64 :=
  ⟨fixed32_onOctets.oneFormat, fixed64_onOctets.oneFormat⟩

end YcsbCloud.Guarantees.FixedWidthFormat
