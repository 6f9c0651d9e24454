import YcsbCloud.Library.Varint
import YcsbCloud.Source.HdrEncoding

/-!
# Round trips of `hdr_encoding.c`

The zig-zag encoder writes the octets of its folded number in groups of seven bits, and the
decoder reads them back, whatever octets follow.
-/
namespace YcsbCloud.Guarantees.HdrEncoding
open Library Source.HdrEncoding

theorem toInt_sshiftRight (value : BitVec 64) (k : ℕ) :
    (value.sshiftRight k).toInt = value.toInt / 2 ^ k := by
  rw [BitVec.toInt_sshiftRight, Int.shiftRight_eq_div_pow]
  norm_cast

theorem sshiftRight_sign (s : BitVec 64) :
    s.sshiftRight 63 = if s.msb then BitVec.allOnes 64 else 0 := by
  have below := BitVec.toInt_lt (x := s)
  have above := BitVec.le_toInt s
  have sign := BitVec.msb_eq_toInt (x := s)
  apply BitVec.eq_of_toInt_eq
  rw [toInt_sshiftRight, sign]
  by_cases negative : s.toInt < 0
  · rw [decide_eq_true negative, if_pos rfl, show (BitVec.allOnes 64).toInt = -1 from rfl]
    omega
  · rw [decide_eq_false negative, if_neg (by decide), show (0 : BitVec 64).toInt = 0 from rfl]
    omega

theorem fold_cancel (s : BitVec 64) :
    (s <<< 1 ^^^ s.sshiftRight 63) >>> 1 ^^^ -((s <<< 1 ^^^ s.sshiftRight 63) &&& 1) = s := by
  rw [sshiftRight_sign]
  cases sign : s.msb with
  | true =>
    have low : (s <<< 1 ^^^ BitVec.allOnes 64) &&& 1 = 1 := by
      ext i inside
      by_cases first : i = 0 <;> simp [first]
    rw [if_pos rfl, low, show -(1 : BitVec 64) = BitVec.allOnes 64 by decide, BitVec.xor_allOnes,
      BitVec.xor_allOnes]
    rw [BitVec.msb_eq_getLsbD_last] at sign
    ext i inside
    by_cases last : i = 63
    · subst last
      simpa using sign.symm
    · simp [show 1 + i < 64 by omega]
  | false =>
    have low : (s <<< 1 ^^^ 0) &&& 1 = 0 := by
      ext i inside
      by_cases first : i = 0 <;> simp [first]
    rw [if_neg (by decide), low]
    rw [BitVec.msb_eq_getLsbD_last] at sign
    ext i inside
    by_cases last : i = 63
    · subst last
      simpa using sign.symm
    · simp [show 1 + i < 64 by omega]

theorem sshiftRight_eq_zero_iff (value : BitVec 64) {k : ℕ} (inside : k ≤ 63) :
    value.sshiftRight k = 0 ↔ value.toNat < 2 ^ k := by
  have power : 2 ^ k ≤ 2 ^ 63 := Nat.pow_le_pow_right Nat.two_pos inside
  have cast : ((2 ^ k : ℕ) : ℤ) = 2 ^ k := by norm_cast
  have positive : (0 : ℤ) < 2 ^ k := Int.pow_pos (by decide)
  have range := value.isLt
  have signed := BitVec.toInt_eq_toNat_cond value
  have parts := Int.mul_ediv_add_emod value.toInt (2 ^ k)
  have least := Int.emod_nonneg value.toInt (Int.ne_of_gt positive)
  have most := Int.emod_lt_of_pos value.toInt positive
  rw [← BitVec.toInt_inj, toInt_sshiftRight, show (0 : BitVec 64).toInt = 0 from rfl]
  constructor
  · intro zero
    rw [zero, Int.mul_zero] at parts
    split at signed <;> omega
  · intro below
    apply Int.ediv_eq_zero_of_lt <;> split at signed <;> omega

theorem setWidth_sshiftRight (value : BitVec 64) (shift : ℕ) (inside : shift ≤ 56) :
    ((value.sshiftRight shift).setWidth 8).toNat = value.toNat / 2 ^ shift % 256 := by
  have same : (value.sshiftRight shift).setWidth 8 = (value >>> shift).setWidth 8 := by
    ext i below
    simp only [BitVec.getElem_setWidth, BitVec.getLsbD_sshiftRight, BitVec.getLsbD_ushiftRight]
    simp [show shift + i < 64 by omega, show i < 64 by omega]
  rw [same, BitVec.toNat_setWidth, BitVec.toNat_ushiftRight, Nat.shiftRight_eq_div_pow]

theorem or_128 {b : ℕ} (small : b < 256) : b ||| 128 = b % 128 + 128 := by
  have carry : 128 * 1 + b % 128 = 128 * 1 ||| b % 128 :=
    Nat.two_pow_add_eq_or_of_lt (i := 7) (Nat.mod_lt b (by decide)) 1
  rw [Nat.mul_one] at carry
  rcases Nat.lt_or_ge b 128 with low | high
  · rw [Nat.mod_eq_of_lt low] at carry ⊢
    rw [Nat.or_comm, ← carry, Nat.add_comm]
  · have whole : b = 128 ||| b % 128 := by omega
    calc b ||| 128 = 128 ||| b % 128 ||| 128 := by rw [← whole]
      _ = 128 ||| b % 128 := by rw [Nat.or_comm, ← Nat.or_assoc, Nat.or_self]
      _ = b % 128 + 128 := by rw [← carry, Nat.add_comm]

/-- An octet with the bit that says that another follows. -/
theorem setWidth_or_128 (x : BitVec 64) :
    ((x ||| 0x80).setWidth 8).toNat = x.toNat % 128 + 128 := by
  rw [BitVec.toNat_setWidth, BitVec.toNat_or, Nat.or_mod_two_pow]
  have := or_128 (Nat.mod_lt x.toNat (by decide : 0 < 256))
  rw [Nat.mod_mod_of_dvd _ (by decide)] at this
  exact this

theorem encodeFrom_octets (value : BitVec 64) (more shift : ℕ) (whole : shift + 7 * more = 56) :
    (encodeFrom value more shift).map UInt8.toNat =
      Varint.octets more (value.toNat / 2 ^ shift) := by
  have range := value.isLt
  induction more generalizing shift with
  | zero =>
    have small : value.toNat / 2 ^ shift < 256 := by
      obtain rfl : shift = 56 := by omega
      omega
    rw [encodeFrom, Varint.octets, List.map_singleton]
    exact congrArg (fun o => [o]) ((setWidth_sshiftRight value _ (by omega)).trans
      (Nat.mod_eq_of_lt small))
  | succ more ih =>
    have next : value.toNat / 2 ^ (shift + 7) = value.toNat / 2 ^ shift / 128 := by
      rw [Nat.pow_add, ← Nat.div_div_eq_div_mul]
    have last : value.sshiftRight (shift + 7) = 0 ↔ value.toNat / 2 ^ shift < 128 := by
      rw [sshiftRight_eq_zero_iff value (by omega), Nat.pow_add,
        Nat.div_lt_iff_lt_mul (Nat.two_pow_pos _), Nat.mul_comm]
    rw [encodeFrom, Varint.octets]
    by_cases ends : value.toNat / 2 ^ shift < 128
    · rw [if_pos (last.mpr ends), if_pos ends, List.map_singleton]
      exact congrArg (fun o => [o]) ((setWidth_sshiftRight value _ (by omega)).trans
        (Nat.mod_eq_of_lt (by omega)))
    · rw [if_neg (fun zero => ends (last.mp zero)), if_neg ends, List.map_cons,
        ih _ (by omega), next]
      congr 1
      have low := setWidth_sshiftRight value shift (by omega)
      rw [BitVec.toNat_setWidth] at low
      exact (setWidth_or_128 _).trans (by omega)

theorem zigZagEncodeI64_octets (s : BitVec 64) :
    (zigZagEncodeI64 s).map UInt8.toNat = Varint.octets 8 (s <<< 1 ^^^ s.sshiftRight 63).toNat := by
  rw [zigZagEncodeI64]
  generalize s <<< 1 ^^^ s.sshiftRight 63 = value
  have single : value.sshiftRight 7 = 0 ↔ value.toNat < 128 :=
    sshiftRight_eq_zero_iff value (by decide)
  rw [Varint.octets]
  by_cases ends : value.toNat < 128
  · rw [if_pos (single.mpr ends), if_pos ends, List.map_singleton]
    refine congrArg (fun o => [o]) ((BitVec.toNat_setWidth ..).trans ?_)
    exact Nat.mod_eq_of_lt (by omega)
  · have first : (value &&& 0x7F).toNat % 128 + 128 = value.toNat % 128 + 128 := by
      rw [BitVec.toNat_and, show (0x7F : BitVec 64).toNat = 2 ^ 7 - 1 from rfl,
        Nat.and_two_pow_sub_one_eq_mod]
      omega
    rw [if_neg (fun zero => ends (single.mp zero)), if_neg ends, List.map_cons,
      encodeFrom_octets value 7 7 rfl]
    exact congrArg (· :: _) ((setWidth_or_128 _).trans first)

theorem and_128_ne_zero {v : BitVec 64} (octet : v.toNat < 256) :
    v &&& 0x80 ≠ 0 ↔ ¬ v.toNat < 128 := by
  have bit : v.getLsbD 7 = decide (v.toNat / 2 ^ 7 % 2 = 1) := Nat.testBit_eq_decide_div_mod_eq
  rw [show (0x80 : BitVec 64) = BitVec.twoPow 64 7 from rfl, BitVec.and_twoPow, bit]
  by_cases large : v.toNat / 2 ^ 7 % 2 = 1
  · rw [decide_eq_true large, if_pos rfl]
    exact iff_of_true (by decide) (by omega)
  · rw [decide_eq_false large, if_neg (by decide)]
    exact iff_of_false (fun ne => ne rfl) (by omega)

theorem or_shiftLeft {value v : BitVec 64} {shift : ℕ} (low : value.toNat < 2 ^ shift)
    (room : 2 ^ shift * v.toNat < 2 ^ 64) :
    (value ||| v <<< shift).toNat = value.toNat + 2 ^ shift * v.toNat := by
  rw [BitVec.toNat_or, BitVec.toNat_shiftLeft, Nat.shiftLeft_eq, Nat.mul_comm v.toNat,
    Nat.mod_eq_of_lt room, Nat.or_comm, ← Nat.two_pow_add_eq_or_of_lt low, Nat.add_comm]

theorem octetAt_toNat (buffer : List UInt8) (i : ℕ) :
    (octetAt buffer i).toNat = (buffer.getD i 0).toNat := by
  rw [octetAt, BitVec.toNat_setWidth]
  exact Nat.mod_eq_of_lt (Nat.lt_trans (buffer.getD i 0).toNat_lt (by decide))

theorem octetAt_lt (buffer : List UInt8) (i : ℕ) : (octetAt buffer i).toNat < 256 := by
  rw [octetAt_toNat]
  exact UInt8.toNat_lt _

theorem headD_drop (buffer : List UInt8) (i : ℕ) :
    ((buffer.drop i).map UInt8.toNat).headD 0 = (octetAt buffer i).toNat := by
  rw [octetAt_toNat, List.headD_eq_head?_getD, List.head?_map, List.head?_drop,
    List.getD_eq_getElem?_getD]
  cases buffer[i]? <;> rfl

theorem decodeFrom_number (buffer : List UInt8) {more i : ℕ} (whole : i + more = 8)
    {value : BitVec 64} (low : value.toNat < 2 ^ (7 * i)) :
    (decodeFrom buffer more i value).1.toNat =
        value.toNat + 2 ^ (7 * i) * (Varint.number more ((buffer.drop i).map UInt8.toNat)).1 ∧
      (decodeFrom buffer more i value).2 =
        i + (Varint.number more ((buffer.drop i).map UInt8.toNat)).2 := by
  induction more generalizing i value with
  | zero =>
    obtain rfl : i = 8 := whole
    have octet := octetAt_lt buffer 8
    rw [decodeFrom, Varint.number, headD_drop]
    exact ⟨or_shiftLeft low (by omega), rfl⟩
  | succ more ih =>
    have octet := octetAt_lt buffer i
    have group : (octetAt buffer i &&& 0x7F).toNat = (octetAt buffer i).toNat % 128 := by
      rw [BitVec.toNat_and, show (0x7F : BitVec 64).toNat = 2 ^ 7 - 1 from rfl,
        Nat.and_two_pow_sub_one_eq_mod]
    have wider : 2 ^ (7 * (i + 1)) = 2 ^ (7 * i) * 128 := by rw [Nat.mul_add, Nat.pow_add]
    have inside : 2 ^ (7 * (i + 1)) ≤ 2 ^ 56 := Nat.pow_le_pow_right Nat.two_pos (by omega)
    have room : 2 ^ (7 * i) * ((octetAt buffer i).toNat % 128) + 2 ^ (7 * i) ≤
        2 ^ (7 * (i + 1)) := by
      rw [wider, ← Nat.mul_succ]
      exact Nat.mul_le_mul_left _ (Nat.mod_lt _ (by decide))
    have joined : (value ||| (octetAt buffer i &&& 0x7F) <<< (7 * i)).toNat =
        value.toNat + 2 ^ (7 * i) * ((octetAt buffer i).toNat % 128) := by
      rw [or_shiftLeft low (by rw [group]; omega), group]
    rw [decodeFrom, Varint.number, headD_drop]
    by_cases ends : (octetAt buffer i).toNat < 128
    · rw [if_neg (fun large => (and_128_ne_zero octet).mp large ends), if_pos ends]
      rw [joined, Nat.mod_eq_of_lt ends]
      exact ⟨rfl, rfl⟩
    · have later : (buffer.drop i).tail = buffer.drop (i + 1) := List.tail_drop
      have below : (value ||| (octetAt buffer i &&& 0x7F) <<< (7 * i)).toNat <
          2 ^ (7 * (i + 1)) := by omega
      obtain ⟨read, length⟩ := ih (by omega) below
      rw [if_pos ((and_128_ne_zero octet).mpr ends), if_neg ends, ← List.map_tail, later, read,
        length, joined, wider]
      constructor
      · have high : (octetAt buffer i).toNat % 128 = (octetAt buffer i).toNat - 128 := by omega
        rw [Nat.mul_add, high]
        ring
      · omega

theorem decodeFrom_encode (s : BitVec 64) (rest : List UInt8) :
    decodeFrom (zigZagEncodeI64 s ++ rest) 8 0 0 =
      (s <<< 1 ^^^ s.sshiftRight 63, (zigZagEncodeI64 s).length) := by
  have start : (0 : BitVec 64).toNat < 2 ^ (7 * 0) := by decide
  obtain ⟨value, length⟩ := decodeFrom_number (zigZagEncodeI64 s ++ rest) (Nat.zero_add 8) start
  have numbered :=
    Varint.number_octets 8 (s <<< 1 ^^^ s.sshiftRight 63).toNat (rest.map UInt8.toNat)
  rw [← zigZagEncodeI64_octets, ← List.map_append, List.length_map] at numbered
  rw [List.drop_zero, numbered] at value length
  refine Prod.ext (BitVec.toNat_inj.mp (value.trans ?_)) (length.trans ?_)
  · rw [show (0 : BitVec 64).toNat = 0 from rfl, Nat.zero_add, Nat.mul_zero, Nat.pow_zero,
      Nat.one_mul]
  · exact Nat.zero_add _

/-- Decoding an encoded number gives it back, and stops where it ends. -/
theorem zigZagDecodeI64_encode (s : BitVec 64) (rest : List UInt8) :
    zigZagDecodeI64 (zigZagEncodeI64 s ++ rest) = (s, (zigZagEncodeI64 s).length) := by
  simp only [zigZagDecodeI64, decodeFrom_encode, fold_cancel]

theorem zigZagEncodeI64_length (s : BitVec 64) :
    0 < (zigZagEncodeI64 s).length ∧ (zigZagEncodeI64 s).length ≤ 9 := by
  rw [← List.length_map UInt8.toNat, zigZagEncodeI64_octets]
  exact ⟨Varint.octets_length_pos .., Varint.octets_length_le ..⟩

theorem fromBase64_table {k : ℕ} (small : k < 64) : fromBase64 (base64Table.getD k 0) = k := by
  revert k
  decide

theorem fromBase64_getBase64 (value24 shift : ℕ) :
    fromBase64 (getBase64 value24 shift) = value24 / 2 ^ shift % 64 := by
  rw [getBase64, Nat.and_comm, show 0x3F = 2 ^ 6 - 1 from rfl, Nat.and_two_pow_sub_one_eq_mod,
    Nat.shiftRight_eq_div_pow]
  exact fromBase64_table (Nat.mod_lt _ (by decide))

theorem shiftLeft_or {low shift : ℕ} (small : low < 2 ^ shift) (high : ℕ) :
    high <<< shift ||| low = high * 2 ^ shift + low := by
  rw [← Nat.shiftLeft_add_eq_or_of_lt small, Nat.shiftLeft_eq]

/-- The bits of four characters are put together again. -/
theorem sextets_joined {v : ℕ} (small : v < 2 ^ 24) :
    (v / 2 ^ 18 % 64) <<< 18 ||| (v / 2 ^ 12 % 64) <<< 12 ||| (v / 2 ^ 6 % 64) <<< 6 |||
      v / 2 ^ 0 % 64 = v := by
  have last : (v / 2 ^ 6 % 64) <<< 6 ||| v / 2 ^ 0 % 64 = v % 2 ^ 12 :=
    (shiftLeft_or (by omega) _).trans (by omega)
  have later : (v / 2 ^ 12 % 64) <<< 12 ||| v % 2 ^ 12 = v % 2 ^ 18 :=
    (shiftLeft_or (by omega) _).trans (by omega)
  rw [Nat.or_assoc, Nat.or_assoc, last, later, shiftLeft_or (by omega)]
  omega

theorem octets_split (a b c : UInt8) :
    [UInt8.ofNat ((a.toNat <<< 16 + b.toNat <<< 8 + c.toNat) >>> 16 &&& 0xFF),
      UInt8.ofNat ((a.toNat <<< 16 + b.toNat <<< 8 + c.toNat) >>> 8 &&& 0xFF),
      UInt8.ofNat ((a.toNat <<< 16 + b.toNat <<< 8 + c.toNat) &&& 0xFF)] = [a, b, c] := by
  have hundreds := a.toNat_lt
  have tens := b.toNat_lt
  have ones := c.toNat_lt
  have octet {n : ℕ} {o : UInt8} (same : n % 256 = o.toNat) : UInt8.ofNat (n &&& 0xFF) = o := by
    rw [show 0xFF = 2 ^ 8 - 1 from rfl, Nat.and_two_pow_sub_one_eq_mod, same, UInt8.ofNat_toNat]
  simp only [Nat.shiftLeft_eq, Nat.shiftRight_eq_div_pow]
  rw [octet (o := a) (by omega), octet (o := b) (by omega), octet (o := c) (by omega)]

theorem hdrBase64DecodeBlock_encode (a b c : UInt8) :
    hdrBase64DecodeBlock
        (getBase64 (a.toNat <<< 16 + b.toNat <<< 8 + c.toNat) 18)
        (getBase64 (a.toNat <<< 16 + b.toNat <<< 8 + c.toNat) 12)
        (getBase64 (a.toNat <<< 16 + b.toNat <<< 8 + c.toNat) 6)
        (getBase64 (a.toNat <<< 16 + b.toNat <<< 8 + c.toNat) 0) = [a, b, c] := by
  have small : a.toNat <<< 16 + b.toNat <<< 8 + c.toNat < 2 ^ 24 := by
    have := a.toNat_lt
    have := b.toNat_lt
    have := c.toNat_lt
    simp only [Nat.shiftLeft_eq]
    omega
  rw [hdrBase64DecodeBlock]
  simp only [fromBase64_getBase64, sextets_joined small]
  exact octets_split a b c

/-- A character of padding is read as the zeros of a block that ends in zeros. -/
theorem fromBase64_pad {value24 shift : ℕ} (zero : value24 / 2 ^ shift % 64 = 0) :
    fromBase64 61 = fromBase64 (getBase64 value24 shift) := by
  rw [fromBase64_getBase64, zero]
  rfl

theorem hdrBase64DecodeBlock_congr {a b c d c' d' : UInt8} (third : fromBase64 c = fromBase64 c')
    (fourth : fromBase64 d = fromBase64 d') :
    hdrBase64DecodeBlock a b c d = hdrBase64DecodeBlock a b c' d' := by
  rw [hdrBase64DecodeBlock, hdrBase64DecodeBlock, third, fourth]

/-- The zeros that fill the last block. -/
def padding (length : ℕ) : List UInt8 := List.replicate ((length + 2) / 3 * 3 - length) 0

theorem base64DecodeLoop_encode (input : List UInt8) {room : ℕ}
    (enough : (input.length + 2) / 3 * 4 ≤ room) :
    base64DecodeLoop (base64EncodeLoop input room) = input ++ padding input.length ∧
      (base64EncodeLoop input room).length = (input.length + 2) / 3 * 4 := by
  induction input, room using base64EncodeLoop.induct with
  | case1 room a b c rest inside ih =>
    simp only [List.length_cons] at enough
    obtain ⟨decoded, length⟩ := ih (by omega)
    rw [base64EncodeLoop, if_pos inside, hdrBase64EncodeBlock]
    simp only [List.cons_append, List.nil_append, List.length_cons]
    constructor
    · rw [base64DecodeLoop, hdrBase64DecodeBlock_encode, decoded, padding, padding]
      simp only [List.cons_append, List.nil_append]
      congr 5
      omega
    · omega
  | case2 room a b c rest full =>
    simp only [List.length_cons] at enough
    omega
  | case3 remaining room short =>
    have encoded : base64EncodeLoop remaining room = hdrBase64EncodeBlockPad remaining := by
      rw [base64EncodeLoop]
      exact short
    rw [encoded]
    rcases remaining with _ | ⟨a, _ | ⟨b, _ | ⟨c, rest⟩⟩⟩
    · exact ⟨rfl, rfl⟩
    · have block := hdrBase64DecodeBlock_encode a 0 0
      have value : a.toNat <<< 16 + (0 : UInt8).toNat <<< 8 + (0 : UInt8).toNat = a.toNat <<< 16 := by
        simp
      rw [value, ← hdrBase64DecodeBlock_congr
          (fromBase64_pad (by rw [Nat.shiftLeft_eq]; omega))
          (fromBase64_pad (by rw [Nat.shiftLeft_eq]; omega))] at block
      constructor
      · rw [hdrBase64EncodeBlockPad, base64DecodeLoop, block]
        simp [padding, base64DecodeLoop]
      · simp [hdrBase64EncodeBlockPad]
    · have block := hdrBase64DecodeBlock_encode a b 0
      rw [show (0 : UInt8).toNat = 0 from rfl, Nat.add_zero,
        ← hdrBase64DecodeBlock_congr rfl
          (fromBase64_pad (by rw [Nat.shiftLeft_eq, Nat.shiftLeft_eq]; omega))] at block
      constructor
      · rw [hdrBase64EncodeBlockPad, base64DecodeLoop, block]
        simp [padding, base64DecodeLoop]
      · simp [hdrBase64EncodeBlockPad]
    · exact absurd rfl (short a b c rest)

/-- Cutting a text off between blocks cuts what it decodes to. -/
theorem base64DecodeLoop_take (text : List UInt8) (blocks : ℕ) :
    base64DecodeLoop (text.take (4 * blocks)) = (base64DecodeLoop text).take (3 * blocks) := by
  induction text using base64DecodeLoop.induct generalizing blocks with
  | case1 a b c d rest ih =>
    cases blocks with
    | zero => rfl
    | succ blocks =>
      rw [Nat.mul_succ, Nat.mul_succ]
      simp only [List.take_succ_cons, base64DecodeLoop, hdrBase64DecodeBlock, List.cons_append,
        List.nil_append, ih]
  | case2 text short =>
    have nothing : base64DecodeLoop text = [] := by
      rw [base64DecodeLoop]
      exact short
    cases blocks with
    | zero => rfl
    | succ blocks =>
      have few : text.length ≤ 3 := by
        rcases text with _ | ⟨a, _ | ⟨b, _ | ⟨c, _ | ⟨d, rest⟩⟩⟩⟩
        · simp
        · simp
        · simp
        · simp
        · exact absurd rfl (short a b c d rest)
      have whole : text.take (4 * (blocks + 1)) = text := List.take_of_length_le (by omega)
      rw [whole, nothing, List.take_nil]

/-- Decoding the characters of octets gives them back, with the zeros that fill the last
block. There are no characters for no octets, which is refused. -/
theorem hdrBase64Decode_encode {input : List UInt8} (nonempty : input ≠ []) :
    ∃ text, hdrBase64Encode input (hdrBase64EncodedLen input.length) = .ok text ∧
      hdrBase64Decode text (hdrBase64DecodedLen text.length) =
        .ok (input ++ padding input.length) := by
  have some_left : 0 < input.length := List.length_pos_of_ne_nil nonempty
  obtain ⟨decoded, length⟩ := base64DecodeLoop_encode input (Nat.le_refl _)
  refine ⟨base64EncodeLoop input (hdrBase64EncodedLen input.length), ?_, ?_⟩
  · rw [hdrBase64Encode, if_neg (fun different => different rfl)]
  · have whole : (input.length + 2) / 3 * 4 &&& 3 = 0 := by
      rw [show 3 = 2 ^ 2 - 1 from rfl, Nat.and_two_pow_sub_one_eq_mod]
      exact Nat.mul_mod_left _ _
    rw [hdrBase64Decode, if_neg]
    · exact congrArg Except.ok decoded
    · rw [hdrBase64EncodedLen, length, whole, hdrBase64DecodedLen]
      omega

end YcsbCloud.Guarantees.HdrEncoding
