import YcsbCloud.Source.RecordCodec

/-!
# What the record decoder reads

The decoder checks neither its count nor its lengths against the string. On a
string that begins with an encoding its reads tile that encoding from the first
octet to the last; on every other string some read leaves it, or a length that it
found there is more than a string can have.
-/
namespace YcsbCloud.Guarantees.DecoderSafety
open Library.Machine Source Source.Coding Source.RecordCodec

/-- The ranges follow one another from `start` to `stop`. -/
def Tiles : Nat → List (Nat × Nat) → Nat → Prop
  | start, [], stop => start = stop
  | start, range :: rest, stop => range.1 = start ∧ Tiles (start + range.2) rest stop

theorem Tiles.append {start middle stop : Nat} {left right : List (Nat × Nat)}
    (first : Tiles start left middle) (second : Tiles middle right stop) :
    Tiles start (left ++ right) stop := by
  induction left generalizing start with
  | nil =>
    rw [Tiles] at first
    exact first ▸ second
  | cons range rest ih => exact ⟨first.1, ih first.2⟩

theorem Tiles.start_le {start stop : Nat} {ranges : List (Nat × Nat)}
    (tiles : Tiles start ranges stop) : start ≤ stop := by
  induction ranges generalizing start with
  | nil => exact Nat.le_of_eq tiles
  | cons range rest ih =>
    have later := ih tiles.2
    omega

theorem Tiles.inside {start stop : Nat} {ranges : List (Nat × Nat)}
    (tiles : Tiles start ranges stop) : ∀ range ∈ ranges, range.1 + range.2 ≤ stop := by
  induction ranges generalizing start with
  | nil => simp
  | cons range rest ih =>
    rw [List.forall_mem_cons]
    refine ⟨?_, ih tiles.2⟩
    rw [tiles.1]
    exact tiles.2.start_le

variable {allocates : Nat → Bool}

theorem sizedRanges_tiles {value rest : Bytes} {offset : Nat} (text : Bytes)
    (fits : value.length < 2 ^ 64) (ample : ∀ n ≤ value.length, allocates n = true)
    (at_sized : Cursor value offset (sized text ++ rest)) :
    Tiles offset (sizedRanges allocates value offset) (offset + (sized text).length) := by
  have inside := at_sized.inside
  rw [List.length_append, sized_length] at inside
  rw [sized, List.append_assoc] at at_sized
  have first : advance offset 8 = offset + 8 := Nat.mod_eq_of_lt (by omega)
  simp only [sizedRanges, readFixed64_cursor text.length (by omega) at_sized, first,
    ample text.length (by omega), if_true, Tiles, sized_length, true_and]
  omega

/-- The loop's reads tile the encodings of the pairs that are left. -/
theorem loopRanges_tiles (value : Bytes) (fits : value.length < 2 ^ 64)
    (ample : ∀ n ≤ value.length, allocates n = true) (kvNum : Nat) (count : kvNum < 2 ^ 32) :
    ∀ (kvs : List KVPair) (rounds i offset : Nat) (rest : Bytes),
      kvs.length < rounds → i + kvs.length = kvNum →
      Cursor value offset (kvs.flatMap encodePair ++ rest) →
      Tiles offset (loopRanges allocates value kvNum rounds i offset)
        (offset + (kvs.flatMap encodePair).length)
  | _, 0, _, _, _, room, _, _ => by omega
  | [], rounds + 1, i, offset, rest, _, total, _ => by
    have done : ¬ i < kvNum := by simp at total; omega
    simp [loopRanges, done, Tiles]
  | kv :: kvs, rounds + 1, i, offset, rest, room, total, here => by
    rw [List.length_cons] at room total
    have running : i < kvNum := by omega
    have next : nextIndex i = i + 1 := Nat.mod_eq_of_lt (by omega)
    simp only [List.flatMap_cons, encodePair, List.append_assoc] at here
    have at_second := here.advance
    have at_rest := at_second.advance
    have first := sizedRanges_tiles kv.1 fits ample here
    have second := sizedRanges_tiles kv.2 fits ample at_second
    have tail := loopRanges_tiles value fits ample kvNum count kvs rounds (i + 1) _ rest (by omega)
      (by omega) at_rest
    simp only [loopRanges, if_pos running, readSized_cursor kv.1 fits ample here,
      readSized_cursor kv.2 fits ample at_second, next]
    rw [List.flatMap_cons, encodePair, List.length_append, List.length_append, ← Nat.add_assoc,
      ← Nat.add_assoc]
    exact first.append (second.append tail)

theorem readRanges_tiles (kvs : List KVPair) (rest : Bytes) (count : kvs.length < 2 ^ 32)
    (fits : (encodeRecord kvs ++ rest).length < 2 ^ 64)
    (ample : ∀ n ≤ (encodeRecord kvs ++ rest).length, allocates n = true) :
    Tiles 0 (readRanges allocates (encodeRecord kvs ++ rest)) (encodeRecord kvs).length := by
  obtain ⟨read, at_pairs⟩ := encodeRecord_start kvs rest count
  have room : kvs.length < (encodeRecord kvs ++ rest).length + 1 := by
    have each := length_le_encodeRecord kvs
    rw [List.length_append]
    omega
  have looped := loopRanges_tiles _ fits ample kvs.length count kvs _ 0 8 rest room (Nat.zero_add _)
    at_pairs
  have length : (encodeRecord kvs).length = 8 + (kvs.flatMap encodePair).length := by
    rw [encodeRecord, List.length_append, encodeFixed64_length]
  simp only [readRanges, read, length]
  exact ⟨rfl, looped⟩

/-- A read that leaves the string, or a length that no string has. -/
def Genuine (allocates : Nat → Bool) (value : Bytes) : DecodeFault → Prop
  | .outside offset length => value.length < offset + length
  | .thrown length => allocates length = false
  | .outOfRounds => False

theorem readBytes_fault {value : Bytes} {offset length : Nat} {fault : DecodeFault}
    (failed : readBytes value offset length = .error fault) : Genuine allocates value fault := by
  unfold readBytes at failed
  split at failed
  · cases failed
  next outside =>
    cases failed
    exact Nat.lt_of_not_le outside

theorem assign_fault {value : Bytes} {offset length : Nat} {fault : DecodeFault}
    (failed : assign allocates value offset length = .error fault) :
    Genuine allocates value fault := by
  unfold assign at failed
  split at failed
  · exact readBytes_fault failed
  next refused =>
    cases failed
    exact Bool.eq_false_iff.mpr refused

theorem readFixed64_fault {value : Bytes} {offset : Nat} {fault : DecodeFault}
    (failed : readFixed64 value offset = .error fault) : Genuine allocates value fault := by
  rcases bind_error failed with outside | ⟨_, _, impossible⟩
  · exact readBytes_fault outside
  · cases impossible

theorem readSized_fault {value : Bytes} {offset : Nat} {fault : DecodeFault}
    (failed : readSized allocates value offset = .error fault) :
    Genuine allocates value fault := by
  rcases bind_error failed with size | ⟨n, _, failed⟩
  · exact readFixed64_fault size
  · rcases bind_error failed with text | ⟨_, _, impossible⟩
    · exact assign_fault text
    · cases impossible

/-- Each round takes sixteen octets at least, so the rounds do not run out. -/
theorem deSerializeLoop_fault (value : Bytes) (fits : value.length < 2 ^ 64) (kvNum : Nat)
    {fault : DecodeFault} :
    ∀ (rounds i offset : Nat) (rest : Bytes) (out : List KVPair),
      Cursor value offset rest → value.length < offset + rounds →
      deSerializeLoop allocates value kvNum rounds i offset out = .error fault →
      Genuine allocates value fault
  | 0, i, offset, rest, out, here, room, failed => by
    have inside := here.inside
    omega
  | rounds + 1, i, offset, rest, out, here, room, failed => by
    unfold deSerializeLoop at failed
    split at failed
    · rcases bind_error failed with first | ⟨⟨name, middle⟩, first, failed⟩
      · exact readSized_fault first
      obtain ⟨body, split, rfl⟩ := readSized_ok fits here first
      have at_body := (split ▸ here).advance
      rcases bind_error failed with second | ⟨⟨text, next⟩, second, failed⟩
      · exact readSized_fault second
      obtain ⟨tail, bodySplit, rfl⟩ := readSized_ok fits at_body second
      have at_tail := (bodySplit ▸ at_body).advance
      rw [sized_length] at at_tail failed
      exact deSerializeLoop_fault value fits kvNum rounds _ _ tail _ at_tail (by omega) failed
    · cases failed

/-- The decoder ends on every string: it returns, throws or reads outside. -/
theorem deSerializeValuesWith_fault (value : Bytes) (fits : value.length < 2 ^ 64)
    (out : List KVPair) {fault : DecodeFault}
    (failed : deSerializeValuesWith allocates value out = .error fault) :
    Genuine allocates value fault := by
  rcases bind_error failed with size | ⟨kvNum, size, failed⟩
  · exact readFixed64_fault size
  · obtain ⟨_, body, split⟩ := readFixed64_ok (Cursor.start value) size
    have at_body := (split ▸ Cursor.start value).advance
    rw [encodeFixed64_length, Nat.zero_add, ← split] at at_body
    exact deSerializeLoop_fault value fits kvNum _ 0 8 body out at_body (by omega) failed

/-- The decoder returns, every range it reads is in the string, and each begins
where the one before it ended, so that no offset wraps. -/
structure Safe (allocates : Nat → Bool) (value : Bytes) (kvs : List KVPair) : Prop where
  returns : ∃ pairs final, deSerializeValuesWith allocates value kvs = .ok (pairs, final)
  inside : ∀ range ∈ readRanges allocates value, range.1 + range.2 ≤ value.length
  unwrapped : ∃ stop, Tiles 0 (readRanges allocates value) stop

theorem safe_encodeRecord (kvs out : List KVPair) (rest : Bytes) (count : kvs.length < 2 ^ 32)
    (fits : (encodeRecord kvs ++ rest).length < 2 ^ 64)
    (ample : ∀ n ≤ (encodeRecord kvs ++ rest).length, allocates n = true) :
    Safe allocates (encodeRecord kvs ++ rest) out := by
  have tiles := readRanges_tiles kvs rest count fits ample
  refine ⟨⟨_, _, deSerializeValuesWith_append kvs out rest count fits ample⟩, ?_, _, tiles⟩
  intro range member
  have within := tiles.inside range member
  rw [List.length_append]
  omega

/-- Where strings of up to the length of the value can be made, the decoder ends on every
value: it returns, throws for a length beyond that, or reads outside. It is safe on those
that begin with an encoding of fewer than `2 ^ 32` pairs, every output of the serializer
among them. -/
theorem decoder_safe_iff (value : Bytes) (fits : value.length < 2 ^ 64) (out : List KVPair)
    (allocates : Nat → Bool) (ample : ∀ n ≤ value.length, allocates n = true) :
    (∀ fault, deSerializeValuesWith allocates value out = .error fault →
      Genuine (fun n => decide (n ≤ value.length)) value fault) ∧
    (Safe allocates value out ↔
      ∃ kvs tail, kvs.length < 2 ^ 32 ∧ value = encodeRecord kvs ++ tail) ∧
    ∀ kvs, serializeValues kvs = some value →
      Safe allocates value out ∧
        deSerializeValuesWith allocates value out = .ok (out ++ kvs, value.length) := by
  refine ⟨?_, ⟨?_, ?_⟩, ?_⟩
  · intro fault failed
    have genuine := deSerializeValuesWith_fault value fits out failed
    cases fault with
    | outside offset length => exact genuine
    | thrown length =>
      refine decide_eq_false fun within => ?_
      rw [Genuine, ample length within] at genuine
      cases genuine
    | outOfRounds => exact genuine
  · intro safe
    obtain ⟨pairs, final, decoded⟩ := safe.returns
    obtain ⟨kvs, tail, _, count, split, _⟩ :=
      deSerializeValuesWith_ok value out pairs final fits decoded
    exact ⟨kvs, tail, count, split⟩
  · rintro ⟨kvs, tail, count, rfl⟩
    exact safe_encodeRecord kvs out tail count fits ample
  · intro kvs serialized
    have count := (serializeValues_isSome_iff kvs).mp (by rw [serialized, Option.isSome_some])
    rw [serializeValues_eq kvs count, Option.some.injEq] at serialized
    rw [← List.append_nil (encodeRecord kvs)] at serialized
    subst value
    have decoded := deSerializeValuesWith_append kvs out [] count fits ample
    refine ⟨safe_encodeRecord kvs out [] count fits ample, ?_⟩
    rw [decoded, List.append_nil]

/-- The encoding of one pair with an octet behind it, where no string has a length of
`2 ^ 62` or more. -/
theorem decoder_safe_iff_trailing :
    Safe (fun n => decide (n < 2 ^ 62)) (encodeRecord [([97], [1, 2])] ++ [0]) [] :=
  (decoder_safe_iff _ (by decide) [] _ fun n within =>
    decide_eq_true (Nat.lt_of_le_of_lt within (by decide))).2.1.mpr ⟨_, _, by decide, rfl⟩

/-- Two pairs announced, the name of the first with a length that no string has. -/
example : deSerializeValuesWith (fun n => decide (n < 2 ^ 62))
    [2, 0, 0, 0, 0, 0, 0, 0, 0, 0, 0, 0, 0, 0, 0, 128] [] = .error (.thrown (2 ^ 63)) := by decide

/-- The empty string is shorter than the count that is read first. -/
theorem empty_value_read_outside :
    ¬ ∀ (value : Bytes) (kvs : List KVPair), value.length < 2 ^ 64 →
      Safe (fun n => decide (n < 2 ^ 62)) value kvs := by
  intro claimed
  have safe := claimed [] [] (by decide)
  exact absurd (safe.inside (0, 8) (by decide)) (by decide)

end YcsbCloud.Guarantees.DecoderSafety
