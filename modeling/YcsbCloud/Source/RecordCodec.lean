import YcsbCloud.Library.Machine
import YcsbCloud.Source.Coding
import YcsbCloud.Source.Db

/-!
# Record codec of `RocksDBCloud`

`SerializeValues` and `DeSerializeValues`, with the widths of the source: sizes
and offsets are 64-bit, both loop counters are 32-bit. The serializer has no
result when its counter can never reach the list's length. The decoder's
`c_str() + offset` is checked against the string here: a read that leaves it is
a fault, so a decoder that returns has read inside the string only. Which lengths
a string can be made of (`max_size()`, the memory there is) is a parameter of the
decoder; `deSerializeValues` is the decoder where all of them can.
-/
namespace YcsbCloud.Source.RecordCodec
open Coding Library.Machine

/-- `unsigned int i; i++`. -/
def nextIndex (i : Nat) : Nat := (i + 1) % 2 ^ 32

/-- `offset += n` on a `uint64_t`. -/
def advance (offset n : Nat) : Nat := (offset + n) % 2 ^ 64

def putSized (value text : Bytes) : Bytes :=
  putFixed64 kLittleEndian value (UInt64.ofNat text.length) ++ text

/-- The serializer's loop; `none` when the rounds run out. -/
def serializeLoop (kvs : List KVPair) : Nat → Nat → Bytes → Option Bytes
  | 0, _, _ => none
  | rounds + 1, i, value =>
    if inside : i < kvs.length then
      serializeLoop kvs rounds (nextIndex i) (putSized (putSized value kvs[i].1) kvs[i].2)
    else some value

/-- The counter has `2 ^ 32` values, so a loop still running after that many
rounds has come back to a counter it already had and never ends. -/
def serializeValues (kvs : List KVPair) : Option Bytes :=
  serializeLoop kvs (2 ^ 32) 0 (putFixed64 kLittleEndian [] (UInt64.ofNat kvs.length))

/-- A read that leaves the string, and what `assign` throws for a length that no
string can be made of: `std::length_error` or `std::bad_alloc`. -/
inductive DecodeFault where
  | outside (offset length : Nat)
  | thrown (length : Nat)
  | outOfRounds
  deriving DecidableEq, Repr

/-- Octets `[offset, offset + length)` of the string. -/
def readBytes (value : Bytes) (offset length : Nat) : Except DecodeFault Bytes :=
  if offset + length ≤ value.length then .ok ((value.drop offset).take length)
  else .error (.outside offset length)

/-- `DecodeFixed64(value.c_str() + offset)`. -/
def readFixed64 (value : Bytes) (offset : Nat) : Except DecodeFault Nat := do
  let octets ← readBytes value offset 8
  return (decodeFixed64 kLittleEndian octets).toNat

/-- `assign(value.c_str() + offset, length)`, which makes the string before it reads. -/
def assign (allocates : Nat → Bool) (value : Bytes) (offset length : Nat) :
    Except DecodeFault Bytes :=
  if allocates length then readBytes value offset length else .error (.thrown length)

/-- A length prefix and the octets it announces, with the offset behind them. -/
def readSized (allocates : Nat → Bool) (value : Bytes) (offset : Nat) :
    Except DecodeFault (Bytes × Nat) := do
  let size ← readFixed64 value offset
  let text ← assign allocates value (advance offset 8) size
  return (text, advance (advance offset 8) size)

/-- The decoder's loop: one pair a round, appended to the output vector. -/
def deSerializeLoop (allocates : Nat → Bool) (value : Bytes) (kvNum : Nat) :
    Nat → Nat → Nat → List KVPair → Except DecodeFault (List KVPair × Nat)
  | 0, _, _, _ => .error .outOfRounds
  | rounds + 1, i, offset, kvs =>
    if i < kvNum then do
      let (first, offset) ← readSized allocates value offset
      let (second, offset) ← readSized allocates value offset
      deSerializeLoop allocates value kvNum rounds (nextIndex i) offset (kvs ++ [(first, second)])
    else .ok (kvs, offset)

/-- The output vector and the final offset. Every round reads sixteen octets or
more, so the string's length bounds the rounds. -/
def deSerializeValuesWith (allocates : Nat → Bool) (value : Bytes) (kvs : List KVPair) :
    Except DecodeFault (List KVPair × Nat) := do
  let kvNum ← readFixed64 value 0
  deSerializeLoop allocates value kvNum (value.length + 1) 0 8 kvs

/-- `DeSerializeValues`, when there is memory. -/
def deSerializeValues (value : Bytes) (kvs : List KVPair) :
    Except DecodeFault (List KVPair × Nat) := deSerializeValuesWith (fun _ => true) value kvs

/-- A length prefix, and the octets it announces once it has been read and a string
for them made. -/
def sizedRanges (allocates : Nat → Bool) (value : Bytes) (offset : Nat) : List (Nat × Nat) :=
  match readFixed64 value offset with
  | .error _ => [(offset, 8)]
  | .ok size => (offset, 8) :: if allocates size then [(advance offset 8, size)] else []

/-- Offset and length of each read of the loop, up to the first that leaves the string
or the first that throws. -/
def loopRanges (allocates : Nat → Bool) (value : Bytes) (kvNum : Nat) :
    Nat → Nat → Nat → List (Nat × Nat)
  | 0, _, _ => []
  | rounds + 1, i, offset =>
    if i < kvNum then
      sizedRanges allocates value offset ++
        match readSized allocates value offset with
        | .error _ => []
        | .ok (_, offset) =>
          sizedRanges allocates value offset ++
            match readSized allocates value offset with
            | .error _ => []
            | .ok (_, offset) => loopRanges allocates value kvNum rounds (nextIndex i) offset
    else []

def readRanges (allocates : Nat → Bool) (value : Bytes) : List (Nat × Nat) :=
  match readFixed64 value 0 with
  | .error _ => [(0, 8)]
  | .ok kvNum => (0, 8) :: loopRanges allocates value kvNum (value.length + 1) 0 8

def sized (text : Bytes) : Bytes :=
  encodeFixed64 kLittleEndian (UInt64.ofNat text.length) ++ text

def encodePair (kv : KVPair) : Bytes := sized kv.1 ++ sized kv.2

def encodeRecord (kvs : List KVPair) : Bytes :=
  encodeFixed64 kLittleEndian (UInt64.ofNat kvs.length) ++ kvs.flatMap encodePair

def encodedLength (kvs : List KVPair) : Nat :=
  8 + (kvs.map fun kv => 16 + kv.1.length + kv.2.length).sum

@[simp] theorem sized_length (text : Bytes) : (sized text).length = 8 + text.length := by
  simp [sized]

@[simp] theorem encodePair_length (kv : KVPair) :
    (encodePair kv).length = 16 + kv.1.length + kv.2.length := by
  simp only [encodePair, List.length_append, sized_length]
  omega

/-- Every pair takes room, so an encoding bounds the rounds of its decoder. -/
theorem length_le_flatMap_encodePair (kvs : List KVPair) :
    kvs.length ≤ (kvs.flatMap encodePair).length := by
  induction kvs with
  | nil => exact Nat.le_refl _
  | cons kv rest ih =>
    rw [List.flatMap_cons, List.length_append, encodePair_length, List.length_cons]
    omega

theorem encodeRecord_length (kvs : List KVPair) :
    (encodeRecord kvs).length = encodedLength kvs := by
  simp only [encodeRecord, encodedLength, List.length_append, encodeFixed64_length,
    List.length_flatMap, encodePair_length]

@[simp] theorem putSized_eq (value text : Bytes) : putSized value text = value ++ sized text := by
  simp [putSized, putFixed64, sized]

/-- From any index the loop appends the pairs that are left. -/
theorem serializeLoop_eq (kvs : List KVPair) (count : kvs.length < 2 ^ 32) :
    ∀ (rounds i : Nat) (value : Bytes), i ≤ kvs.length → kvs.length - i < rounds →
      serializeLoop kvs rounds i value = some (value ++ (kvs.drop i).flatMap encodePair)
  | 0, i, value, _, room => by omega
  | rounds + 1, i, value, bound, room => by
    rw [serializeLoop]
    by_cases inside : i < kvs.length
    · have next : nextIndex i = i + 1 := Nat.mod_eq_of_lt (by omega)
      rw [dif_pos inside, next,
        serializeLoop_eq kvs count rounds (i + 1) _ (by omega) (by omega),
        List.drop_eq_getElem_cons inside, putSized_eq, putSized_eq]
      simp only [List.flatMap_cons, encodePair, List.append_assoc]
    · have done : kvs.length ≤ i := by omega
      rw [dif_neg inside, List.drop_eq_nil_of_le done]
      simp

theorem serializeValues_eq (kvs : List KVPair) (count : kvs.length < 2 ^ 32) :
    serializeValues kvs = some (encodeRecord kvs) := by
  unfold serializeValues
  rw [serializeLoop_eq kvs count _ _ _ (Nat.zero_le _) (by omega)]
  simp [putFixed64, encodeRecord]

/-- A list the 32-bit counter cannot reach the end of is never serialized,
however long the loop runs. -/
theorem serializeLoop_diverges (kvs : List KVPair) (count : 2 ^ 32 ≤ kvs.length) :
    ∀ (rounds i : Nat) (value : Bytes), i < 2 ^ 32 → serializeLoop kvs rounds i value = none
  | 0, _, _, _ => rfl
  | rounds + 1, i, value, bound => by
    have inside : i < kvs.length := by omega
    rw [serializeLoop, dif_pos inside]
    exact serializeLoop_diverges kvs count rounds _ _ (Nat.mod_lt _ (by decide))

theorem serializeValues_isSome_iff (kvs : List KVPair) :
    (serializeValues kvs).isSome ↔ kvs.length < 2 ^ 32 := by
  by_cases count : kvs.length < 2 ^ 32
  · rw [serializeValues_eq kvs count]
    exact iff_of_true rfl count
  · have diverges : serializeValues kvs = none :=
      serializeLoop_diverges kvs (by omega) _ _ _ (by decide)
    rw [diverges]
    exact iff_of_false (by simp) count

variable {allocates : Nat → Bool}

/-- The decoder stands at `offset` with `rest` ahead of it. -/
structure Cursor (value : Bytes) (offset : Nat) (rest : Bytes) : Prop where
  drop_eq : value.drop offset = rest
  inside : offset + rest.length = value.length

theorem Cursor.start (value : Bytes) : Cursor value 0 value := ⟨rfl, Nat.zero_add _⟩

theorem Cursor.advance {value rest : Bytes} {offset : Nat} (text : Bytes)
    (at_text : Cursor value offset (text ++ rest)) : Cursor value (offset + text.length) rest := by
  refine ⟨?_, ?_⟩
  · rw [← List.drop_drop, at_text.drop_eq, List.drop_left]
  · have length := at_text.inside
    rw [List.length_append] at length
    omega

theorem readBytes_cursor {value rest : Bytes} {offset : Nat} (text : Bytes)
    (at_text : Cursor value offset (text ++ rest)) :
    readBytes value offset text.length = .ok text := by
  have room : offset + text.length ≤ value.length := by
    have length := at_text.inside
    rw [List.length_append] at length
    omega
  rw [readBytes, if_pos room, at_text.drop_eq, List.take_left]

/-- A read that returns has split what was ahead of it. -/
theorem readBytes_ok {value rest text : Bytes} {offset length : Nat}
    (at_rest : Cursor value offset rest) (read : readBytes value offset length = .ok text) :
    text.length = length ∧ ∃ tail, rest = text ++ tail := by
  unfold readBytes at read
  split at read
  next room =>
    cases read
    rw [at_rest.drop_eq]
    have inside := at_rest.inside
    exact ⟨by rw [List.length_take]; omega, rest.drop length, (List.take_append_drop _ _).symm⟩
  · cases read

theorem readFixed64_cursor {value rest : Bytes} {offset : Nat} (n : Nat) (small : n < 2 ^ 64)
    (at_size : Cursor value offset (encodeFixed64 kLittleEndian (UInt64.ofNat n) ++ rest)) :
    readFixed64 value offset = .ok n := by
  have read := readBytes_cursor _ at_size
  rw [encodeFixed64_length] at read
  have decoded := decodeFixed64_append (UInt64.ofNat n) []
  rw [List.append_nil] at decoded
  simp only [readFixed64, read, bind, Except.bind, pure, Except.pure, decoded,
    UInt64.toNat_ofNat_of_lt' small]

theorem readFixed64_ok {value rest : Bytes} {offset n : Nat} (at_rest : Cursor value offset rest)
    (read : readFixed64 value offset = .ok n) :
    n < 2 ^ 64 ∧ ∃ tail, rest = encodeFixed64 kLittleEndian (UInt64.ofNat n) ++ tail := by
  obtain ⟨text, octets, decoded⟩ := bind_success read
  obtain ⟨length, tail, split⟩ := readBytes_ok at_rest octets
  have encoded := encodeFixed64_decode text (by omega)
  rw [List.take_of_length_le (by omega)] at encoded
  cases decoded
  exact ⟨UInt64.toNat_lt _, tail, by rw [UInt64.ofNat_toNat, encoded]; exact split⟩

theorem readSized_cursor {value rest : Bytes} {offset : Nat} (text : Bytes)
    (fits : value.length < 2 ^ 64) (ample : ∀ n ≤ value.length, allocates n = true) (at_sized : Cursor value offset (sized text ++ rest)) :
    readSized allocates value offset = .ok (text, offset + (sized text).length) := by
  have inside := at_sized.inside
  rw [sized, List.append_assoc] at at_sized
  rw [List.length_append, sized_length] at inside
  have at_text := at_sized.advance
  rw [encodeFixed64_length] at at_text
  have first : advance offset 8 = offset + 8 := Nat.mod_eq_of_lt (by omega)
  have second : advance (offset + 8) text.length = offset + (sized text).length := by
    rw [sized_length, advance, Nat.mod_eq_of_lt (by omega)]
    omega
  simp only [readSized, readFixed64_cursor text.length (by omega) at_sized, bind, Except.bind,
    first, assign, ample text.length (by omega), if_true, readBytes_cursor text at_text, pure,
    Except.pure, second]

theorem assign_ok {value text : Bytes} {offset length : Nat}
    (read : assign allocates value offset length = .ok text) :
    readBytes value offset length = .ok text := by
  unfold assign at read
  split at read
  · exact read
  · cases read

theorem readSized_ok {value rest text : Bytes} {offset next : Nat} (fits : value.length < 2 ^ 64)
    (at_rest : Cursor value offset rest) (read : readSized allocates value offset = .ok (text, next)) :
    ∃ tail, rest = sized text ++ tail ∧ next = offset + (sized text).length := by
  obtain ⟨n, size, afterSize⟩ := bind_success read
  obtain ⟨_, body, split⟩ := readFixed64_ok at_rest size
  have at_body := (split ▸ at_rest).advance
  rw [encodeFixed64_length] at at_body
  have inside := at_body.inside
  have first : advance offset 8 = offset + 8 := Nat.mod_eq_of_lt (by omega)
  rw [first] at afterSize
  obtain ⟨found, octets, returned⟩ := bind_success afterSize
  obtain ⟨length, tail, bodySplit⟩ := readBytes_ok at_body (assign_ok octets)
  have sum : body.length = found.length + tail.length := by rw [bodySplit, List.length_append]
  cases returned
  refine ⟨tail, ?_, ?_⟩
  · rw [split, bodySplit, sized, length, List.append_assoc]
  · rw [sized_length, advance, Nat.mod_eq_of_lt (by omega)]
    omega

/-- Forward: on the encoding of the pairs that are left, the loop appends them
and ends behind them. The induction generalizes the offset and the output. -/
theorem deSerializeLoop_encoded (value : Bytes) (fits : value.length < 2 ^ 64)
    (ample : ∀ n ≤ value.length, allocates n = true) (kvNum : Nat) (count : kvNum < 2 ^ 32) :
    ∀ (kvs : List KVPair) (rounds i offset : Nat) (out : List KVPair) (rest : Bytes),
      kvs.length < rounds → i + kvs.length = kvNum →
      Cursor value offset (kvs.flatMap encodePair ++ rest) →
      deSerializeLoop allocates value kvNum rounds i offset out =
        .ok (out ++ kvs, offset + (kvs.flatMap encodePair).length)
  | _, 0, _, _, _, _, room, _, _ => by omega
  | [], rounds + 1, i, offset, out, rest, _, total, _ => by
    have done : ¬ i < kvNum := by simp at total; omega
    simp [deSerializeLoop, done]
  | kv :: kvs, rounds + 1, i, offset, out, rest, room, total, here => by
    rw [List.length_cons] at room total
    have running : i < kvNum := by omega
    have next : nextIndex i = i + 1 := Nat.mod_eq_of_lt (by omega)
    simp only [List.flatMap_cons, encodePair, List.append_assoc] at here
    have at_second := here.advance
    have at_rest := at_second.advance
    have tail := deSerializeLoop_encoded value fits ample kvNum count kvs rounds (i + 1) _
      (out ++ [(kv.1, kv.2)]) rest (by omega) (by omega) at_rest
    simp only [deSerializeLoop, if_pos running, readSized_cursor kv.1 fits ample here,
      readSized_cursor kv.2 fits ample at_second, bind, Except.bind, next, tail]
    simp only [List.flatMap_cons, encodePair, List.length_append, List.append_assoc,
      List.cons_append, List.nil_append, Nat.add_assoc]

/-- Backward: a loop that returns has read encodings of the pairs it appended,
back to back, and as many of them as the count still asked for. -/
theorem deSerializeLoop_ok (value : Bytes) (fits : value.length < 2 ^ 64) (kvNum : Nat) :
    ∀ (rounds i offset final : Nat) (out pairs : List KVPair) (rest : Bytes),
      i ≤ kvNum → i < 2 ^ 32 → Cursor value offset rest →
      deSerializeLoop allocates value kvNum rounds i offset out = .ok (pairs, final) →
      kvNum < 2 ^ 32 ∧ ∃ kvs tail, pairs = out ++ kvs ∧ i + kvs.length = kvNum ∧
        rest = kvs.flatMap encodePair ++ tail ∧
        final = offset + (kvs.flatMap encodePair).length
  | 0, _, _, _, _, _, _, _, _, _, ran => by simp [deSerializeLoop] at ran
  | rounds + 1, i, offset, final, out, pairs, rest, bound, small, here, ran => by
    unfold deSerializeLoop at ran
    split at ran
    next running =>
      obtain ⟨⟨name, middle⟩, first, ran⟩ := bind_success ran
      obtain ⟨body, split, rfl⟩ := readSized_ok fits here first
      have at_body := (split ▸ here).advance
      obtain ⟨⟨text, next⟩, second, ran⟩ := bind_success ran
      obtain ⟨tail, bodySplit, rfl⟩ := readSized_ok fits at_body second
      have at_tail := (bodySplit ▸ at_body).advance
      have nextBound : nextIndex i ≤ kvNum := by
        have := Nat.mod_le (i + 1) (2 ^ 32)
        unfold nextIndex
        omega
      obtain ⟨count, kvs, last, rfl, total, tailSplit, rfl⟩ :=
        deSerializeLoop_ok value fits kvNum rounds _ _ final _ pairs tail nextBound
          (Nat.mod_lt _ (by decide)) at_tail ran
      have next : nextIndex i = i + 1 := Nat.mod_eq_of_lt (by omega)
      rw [next] at total
      refine ⟨count, (name, text) :: kvs, last, ?_, ?_, ?_, ?_⟩
      · rw [List.append_assoc, List.singleton_append]
      · rw [List.length_cons]
        omega
      · rw [split, bodySplit, tailSplit]
        simp only [List.flatMap_cons, encodePair, List.append_assoc]
      · simp only [List.flatMap_cons, encodePair, List.length_append]
        omega
    next done =>
      simp only [Except.ok.injEq, Prod.mk.injEq] at ran
      obtain ⟨rfl, rfl⟩ := ran
      exact ⟨by omega, [], rest, by simp, by simp; omega, by simp, by simp⟩

private theorem readSized_next_lt {value text : Bytes} {offset next : Nat}
    (read : readSized allocates value offset = .ok (text, next)) : next < 2 ^ 64 := by
  obtain ⟨n, _, afterSize⟩ := bind_success read
  obtain ⟨found, _, returned⟩ := bind_success afterSize
  cases returned
  exact Nat.mod_lt _ (by decide)

/-- Offsets are 64-bit, so the final one is. -/
theorem deSerializeLoop_final_lt (value : Bytes) (kvNum : Nat) :
    ∀ (rounds i offset final : Nat) (out pairs : List KVPair), offset < 2 ^ 64 →
      deSerializeLoop allocates value kvNum rounds i offset out = .ok (pairs, final) → final < 2 ^ 64
  | 0, _, _, _, _, _, _, ran => by simp [deSerializeLoop] at ran
  | rounds + 1, i, offset, final, out, pairs, small, ran => by
    unfold deSerializeLoop at ran
    split at ran
    · obtain ⟨_, _, ran⟩ := bind_success ran
      obtain ⟨_, second, ran⟩ := bind_success ran
      exact deSerializeLoop_final_lt value kvNum rounds _ _ final _ pairs
        (readSized_next_lt second) ran
    · simp only [Except.ok.injEq, Prod.mk.injEq] at ran
      omega

/-- The lists a record can hold: the count fits the 32-bit counters, and the
encoding fits a string's 64-bit size. -/
structure Storable (kvs : List KVPair) : Prop where
  count : kvs.length < 2 ^ 32
  fits : encodedLength kvs < 2 ^ 64

instance (kvs : List KVPair) : Decidable (Storable kvs) :=
  decidable_of_iff (kvs.length < 2 ^ 32 ∧ encodedLength kvs < 2 ^ 64)
    ⟨fun h => ⟨h.1, h.2⟩, fun h => ⟨h.count, h.fits⟩⟩

theorem storable_nil : Storable [] := ⟨by decide, by decide⟩

theorem length_le_encodeRecord (kvs : List KVPair) : kvs.length ≤ (encodeRecord kvs).length := by
  have each := length_le_flatMap_encodePair kvs
  rw [encodeRecord, List.length_append]
  omega

/-- What the decoder finds at the start of an encoding, and where it stands then. -/
theorem encodeRecord_start (kvs : List KVPair) (rest : Bytes) (count : kvs.length < 2 ^ 32) :
    readFixed64 (encodeRecord kvs ++ rest) 0 = .ok kvs.length ∧
      Cursor (encodeRecord kvs ++ rest) 8 (kvs.flatMap encodePair ++ rest) := by
  have at_count : Cursor (encodeRecord kvs ++ rest) 0
      (encodeFixed64 kLittleEndian (UInt64.ofNat kvs.length) ++
        (kvs.flatMap encodePair ++ rest)) := by
    rw [← List.append_assoc]
    exact Cursor.start _
  have at_pairs := at_count.advance
  rw [encodeFixed64_length, Nat.zero_add] at at_pairs
  exact ⟨readFixed64_cursor kvs.length (by omega) at_count, at_pairs⟩

/-- Decoding what begins with an encoding appends its pairs and ends behind it. -/
theorem deSerializeValuesWith_append (kvs out : List KVPair) (rest : Bytes)
    (count : kvs.length < 2 ^ 32) (fits : (encodeRecord kvs ++ rest).length < 2 ^ 64)
    (ample : ∀ n ≤ (encodeRecord kvs ++ rest).length, allocates n = true) :
    deSerializeValuesWith allocates (encodeRecord kvs ++ rest) out =
      .ok (out ++ kvs, (encodeRecord kvs).length) := by
  obtain ⟨read, at_pairs⟩ := encodeRecord_start kvs rest count
  have room : kvs.length < (encodeRecord kvs ++ rest).length + 1 := by
    have each := length_le_encodeRecord kvs
    rw [List.length_append]
    omega
  have looped := deSerializeLoop_encoded _ fits ample kvs.length count kvs _ 0 8 out rest room
    (Nat.zero_add _) at_pairs
  simp only [deSerializeValuesWith, read, bind, Except.bind, looped]
  rw [encodeRecord, List.length_append, encodeFixed64_length]

/-- Decoding an encoding appends its pairs and ends at its end. -/
theorem deSerializeValues_encodeRecord (kvs out : List KVPair) (storable : Storable kvs) :
    deSerializeValues (encodeRecord kvs) out =
      .ok (out ++ kvs, (encodeRecord kvs).length) := by
  have fits : (encodeRecord kvs ++ []).length < 2 ^ 64 := by
    rw [List.append_nil, encodeRecord_length]
    exact storable.fits
  have decoded := deSerializeValuesWith_append kvs out [] storable.count fits
    (fun _ _ => rfl : ∀ n ≤ _, (fun _ => true) n = true)
  rwa [List.append_nil] at decoded

/-- A decoder that returns has read an encoding. -/
theorem deSerializeValuesWith_ok (value : Bytes) (out pairs : List KVPair) (final : Nat)
    (fits : value.length < 2 ^ 64)
    (decoded : deSerializeValuesWith allocates value out = .ok (pairs, final)) :
    ∃ kvs tail, pairs = out ++ kvs ∧ kvs.length < 2 ^ 32 ∧ value = encodeRecord kvs ++ tail ∧
      final = (encodeRecord kvs).length := by
  obtain ⟨kvNum, size, ran⟩ := bind_success decoded
  have start := Cursor.start value
  obtain ⟨_, body, split⟩ := readFixed64_ok start size
  have at_body : Cursor value 8 body := by
    have behind := (split ▸ start).advance
    rwa [encodeFixed64_length, Nat.zero_add, ← split] at behind
  obtain ⟨count, kvs, tail, rfl, total, bodySplit, ended⟩ :=
    deSerializeLoop_ok value fits kvNum _ 0 8 _ out pairs body (Nat.zero_le _) (by decide)
      at_body ran
  rw [Nat.zero_add] at total
  refine ⟨kvs, tail, rfl, by omega, ?_, ?_⟩
  · rw [split, bodySplit, encodeRecord, total, List.append_assoc]
  · rw [ended, encodeRecord, List.length_append, encodeFixed64_length]

/-- A decoder that returns at the string's end has read a canonical encoding. -/
theorem deSerializeValues_exact (value : Bytes) (out pairs : List KVPair)
    (decoded : deSerializeValues value out = .ok (pairs, value.length)) :
    ∃ kvs, pairs = out ++ kvs ∧ kvs.length < 2 ^ 32 ∧ encodeRecord kvs = value := by
  obtain ⟨kvNum, _, ran⟩ := bind_success decoded
  have fits : value.length < 2 ^ 64 :=
    deSerializeLoop_final_lt value kvNum _ _ _ _ _ _ (by decide) ran
  obtain ⟨kvs, tail, rfl, count, split, ended⟩ :=
    deSerializeValuesWith_ok value out pairs value.length fits decoded
  have noTail : tail = [] := by
    apply List.eq_nil_of_length_eq_zero
    rw [split, List.length_append] at ended
    omega
  exact ⟨kvs, rfl, count, by rw [split, noTail, List.append_nil]⟩

end YcsbCloud.Source.RecordCodec
