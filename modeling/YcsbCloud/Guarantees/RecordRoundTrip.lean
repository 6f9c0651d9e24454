import YcsbCloud.Source.RecordCodec

/-!
# The record codec is a bijection

Between the lists a record can hold and the strings the decoder consumes to
their end: every such list comes back from its encoding, and every such string
is the encoding of what it decodes to. Payload octets are arbitrary, so a field
that looks like a length prefix is covered.
-/
namespace YcsbCloud.Guarantees.RecordRoundTrip
open Source Source.RecordCodec

/-- A decoder result other than a fault means that every read stayed inside the
string, and its second component is the decoder's final offset. -/
theorem codec_bijection :
    (∀ kvs r : List KVPair, kvs.length < 2 ^ 32 → encodedLength kvs < 2 ^ 64 →
      ∃ value, serializeValues kvs = some value ∧ value.length = encodedLength kvs ∧
        deSerializeValues value r = .ok (r ++ kvs, value.length)) ∧
    (∀ (value : Bytes) (r out : List KVPair),
      deSerializeValues value r = .ok (out, value.length) →
        ∃ kvs, out = r ++ kvs ∧ serializeValues kvs = some value) := by
  constructor
  · intro kvs r count fits
    refine ⟨encodeRecord kvs, serializeValues_eq kvs count, encodeRecord_length kvs, ?_⟩
    exact deSerializeValues_encodeRecord kvs r ⟨count, fits⟩
  · intro value r out decoded
    obtain ⟨kvs, appended, count, encoded⟩ := deSerializeValues_exact value r out decoded
    exact ⟨kvs, appended, encoded ▸ serializeValues_eq kvs count⟩

/-- A field whose octets are a length prefix, next to an empty one with a NUL
name, behind a result that is not empty. -/
theorem codec_bijection_prefix_octets :
    ∃ value, serializeValues [([8, 0, 0, 0, 0, 0, 0, 0], [255]), ([0], [])] = some value ∧
      value.length = 50 ∧ deSerializeValues value [([1], [2])] =
        .ok ([([1], [2]), ([8, 0, 0, 0, 0, 0, 0, 0], [255]), ([0], [])], 50) ∧
      ∃ kvs, [([1], [2]), ([8, 0, 0, 0, 0, 0, 0, 0], [255]), ([0], [])] = [([1], [2])] ++ kvs ∧
        serializeValues kvs = some value := by
  obtain ⟨value, serialized, length, decoded⟩ := codec_bijection.1
    [([8, 0, 0, 0, 0, 0, 0, 0], [255]), ([0], [])] [([1], [2])] (by decide) (by decide)
  have total : value.length = 50 := length
  rw [total] at decoded
  exact ⟨value, serialized, total, decoded, codec_bijection.2 value _ _ (total ▸ decoded)⟩

end YcsbCloud.Guarantees.RecordRoundTrip
