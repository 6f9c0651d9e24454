import YcsbCloud.Guarantees.HdrHistogramLog
import YcsbCloud.Source.HdrLogReader

/-!
# Which entries a log reader accepts

The text of an entry is stated apart from the reader, which accepts it exactly.
-/
namespace YcsbCloud.Guarantees.HdrLogReader
open Source.HdrHistogram Source.HdrHistogramLog Source.HdrLogReader

/-- Digits and points. -/
def Numeric (s : List UInt8) : Prop := ∀ c ∈ s, c = 46 ∨ isDigit c = true

/-- The number of some digits, after those of `n`. -/
def number (n : ℕ) (digits : List UInt8) : ℕ := digits.foldl (fun n c => n * 10 + (c.toNat - 48)) n

/-- The seconds in front of the first point, and the digits behind it as a part of a second. -/
def timeOf (s : List UInt8) : Timespec where
  tvSec := number 0 (s.takeWhile isDigit)
  tvNsec := number 0 ((s.dropWhile isDigit).filter isDigit) *
    (1000000000 / 10 ^ ((s.dropWhile isDigit).filter isDigit).length)

theorem digit_ne {c : UInt8} (digit : isDigit c = true) : 44 ≠ c ∧ 46 ≠ c := by
  constructor
  · rintro rfl
    cases digit
  · rintro rfl
    cases digit

theorem le_number (n : ℕ) (digits : List UInt8) : n ≤ number n digits := by
  induction digits generalizing n with
  | nil => exact Nat.le_refl n
  | cons c digits ih => exact Nat.le_trans (by omega) (ih (n * 10 + (c.toNat - 48)))

theorem digit_le {c : UInt8} (digit : isDigit c = true) : c.toNat - 48 ≤ 9 := by
  have most : c ≤ 57 := (of_decide_eq_true digit).2
  have : c.toNat ≤ 57 := UInt8.le_iff_toNat_le.mp most
  omega

/-- The digits that are read and the multiplier that is left make up no more than a second. -/
def PartOfSecond (nsec nsecMultiplier : ℕ) : Prop := (nsec + 1) * nsecMultiplier ≤ 1000000000

theorem PartOfSecond.digit {nsec nsecMultiplier d : ℕ} (part : PartOfSecond nsec nsecMultiplier)
    (digit : d ≤ 9) : PartOfSecond (nsec * 10 + d) (nsecMultiplier / 10) := by
  unfold PartOfSecond at part ⊢
  calc (nsec * 10 + d + 1) * (nsecMultiplier / 10)
      ≤ (nsec + 1) * 10 * (nsecMultiplier / 10) := Nat.mul_le_mul_right _ (by omega)
    _ = (nsec + 1) * (10 * (nsecMultiplier / 10)) := Nat.mul_assoc ..
    _ ≤ (nsec + 1) * nsecMultiplier := Nat.mul_le_mul_left _ (Nat.mul_div_le ..)
    _ ≤ 1000000000 := part

theorem PartOfSecond.fits {nsec nsecMultiplier : ℕ} (part : PartOfSecond nsec nsecMultiplier) :
    nsec * nsecMultiplier ≤ INT64_MAX :=
  Nat.le_trans (Nat.mul_le_mul_right _ (Nat.le_succ nsec)) (Nat.le_trans part (by decide))

theorem fractionLoop_eq {s : List UInt8} (numeric : Numeric s) (rest : List UInt8) (sec : ℕ)
    {nsec nsecMultiplier : ℕ} (fits : nsec ≤ INT64_MAX) (part : PartOfSecond nsec nsecMultiplier) :
    timestampLoop 44 false sec nsec nsecMultiplier (s ++ 44 :: rest) =
      if number nsec (s.filter isDigit) ≤ INT64_MAX then
        .ok (⟨sec, number nsec (s.filter isDigit) *
          (nsecMultiplier / 10 ^ (s.filter isDigit).length)⟩, rest)
      else .error .undefined := by
  induction s generalizing nsec nsecMultiplier with
  | nil => simp [timestampLoop, number, fits, Nat.not_lt.mpr part.fits]
  | cons c s ih =>
    obtain ⟨first, later⟩ := List.forall_mem_cons.mp numeric
    rw [List.cons_append, timestampLoop]
    rcases first with rfl | digit
    · rw [if_neg (by decide), if_pos rfl, ih later fits part, List.filter_cons_of_neg (by decide)]
    · have next : number nsec (c :: s.filter isDigit) =
          number (nsec * 10 + (c.toNat - 48)) (s.filter isDigit) := rfl
      rw [if_neg (digit_ne digit).1, if_neg (digit_ne digit).2, if_pos digit,
        if_neg Bool.false_ne_true, List.filter_cons_of_pos digit, List.length_cons, next]
      split
      next beyond =>
        have more := le_number (nsec * 10 + (c.toNat - 48)) (s.filter isDigit)
        rw [if_neg (by omega)]
      next within =>
        rw [ih later (Nat.le_of_not_lt within) (part.digit (digit_le digit)),
          Nat.div_div_eq_div_mul, Nat.pow_succ, Nat.mul_comm 10]

/-- Both numbers of a timestamp stay in a `long`. -/
def FitsLong (s : List UInt8) : Prop :=
  number 0 (s.takeWhile isDigit) ≤ INT64_MAX ∧
    number 0 ((s.dropWhile isDigit).filter isDigit) ≤ INT64_MAX

instance (s : List UInt8) : Decidable (FitsLong s) := by
  unfold FitsLong
  infer_instance

theorem secondsLoop_eq {s : List UInt8} (numeric : Numeric s) (rest : List UInt8)
    {sec nsecMultiplier : ℕ} (fits : sec ≤ INT64_MAX) (part : PartOfSecond 0 nsecMultiplier) :
    timestampLoop 44 true sec 0 nsecMultiplier (s ++ 44 :: rest) =
      if number sec (s.takeWhile isDigit) ≤ INT64_MAX ∧
          number 0 ((s.dropWhile isDigit).filter isDigit) ≤ INT64_MAX then
        .ok (⟨number sec (s.takeWhile isDigit), number 0 ((s.dropWhile isDigit).filter isDigit) *
          (nsecMultiplier / 10 ^ ((s.dropWhile isDigit).filter isDigit).length)⟩, rest)
      else .error .undefined := by
  induction s generalizing sec with
  | nil => simp [timestampLoop, number, fits]
  | cons c s ih =>
    obtain ⟨first, later⟩ := List.forall_mem_cons.mp numeric
    rw [List.cons_append, timestampLoop]
    rcases first with rfl | digit
    · have start : number sec [] ≤ INT64_MAX := fits
      rw [if_neg (by decide), if_pos rfl, fractionLoop_eq later _ _ (Nat.zero_le INT64_MAX) part,
        List.takeWhile_cons_of_neg (by decide), List.dropWhile_cons_of_neg (by decide),
        List.filter_cons_of_neg (by decide)]
      simp only [start, true_and]
      rfl
    · have next : number sec (c :: s.takeWhile isDigit) =
          number (sec * 10 + (c.toNat - 48)) (s.takeWhile isDigit) := rfl
      rw [if_neg (digit_ne digit).1, if_neg (digit_ne digit).2, if_pos digit, if_pos rfl,
        List.takeWhile_cons_of_pos digit, List.dropWhile_cons_of_pos digit, next]
      split
      next beyond =>
        have more := le_number (sec * 10 + (c.toNat - 48)) (s.takeWhile isDigit)
        rw [if_neg (by omega)]
      next within => exact ih later (Nat.le_of_not_lt within)

theorem timestampLoop_shape {isSeconds : Bool} {sec nsec nsecMultiplier : ℕ}
    {file rest : List UInt8} {time : Timespec}
    (read : timestampLoop 44 isSeconds sec nsec nsecMultiplier file = .ok (time, rest)) :
    ∃ s, Numeric s ∧ file = s ++ 44 :: rest := by
  induction file generalizing isSeconds sec nsec nsecMultiplier with
  | nil => cases read
  | cons c file ih =>
    have more {s : List UInt8} (numeric : Numeric s) (first : c = 46 ∨ isDigit c = true)
        (parts : file = s ++ 44 :: rest) : ∃ s, Numeric s ∧ c :: file = s ++ 44 :: rest :=
      ⟨c :: s, List.forall_mem_cons.mpr ⟨first, numeric⟩, by rw [parts, List.cons_append]⟩
    rw [timestampLoop] at read
    split at read
    next terminator =>
      split at read
      · cases read
      · cases read
        exact ⟨[], List.forall_mem_nil _, by rw [terminator, List.nil_append]⟩
    · split at read
      next point =>
        obtain ⟨s, numeric, parts⟩ := ih read
        exact more numeric (.inl point.symm) parts
      · split at read
        next digit =>
          split at read
          all_goals
            split at read
            · cases read
            · obtain ⟨s, numeric, parts⟩ := ih read
              exact more numeric (.inr digit) parts
        · cases read

/-- The text of a timestamp that is read. -/
structure TimeText (s : List UInt8) : Prop where
  numeric : Numeric s
  fits : FitsLong s

theorem readAheadTimestamp_iff {file rest : List UInt8} {time : Timespec} :
    readAheadTimestamp 44 file = .ok (time, rest) ↔
      ∃ s, TimeText s ∧ file = s ++ 44 :: rest ∧ time = timeOf s := by
  constructor
  · intro read
    obtain ⟨s, numeric, rfl⟩ := timestampLoop_shape read
    rw [readAheadTimestamp, secondsLoop_eq numeric rest (Nat.zero_le INT64_MAX) (Nat.le_refl _)] at read
    split at read
    next fits =>
      cases read
      exact ⟨s, ⟨numeric, fits⟩, rfl, rfl⟩
    · cases read
  · rintro ⟨s, text, rfl, rfl⟩
    exact (secondsLoop_eq text.numeric rest (Nat.zero_le INT64_MAX) (Nat.le_refl _)).trans (if_pos text.fits)

theorem stateTimestamp_iff {file rest : List UInt8} {time : Timespec} :
    stateTimestamp file = .ok (time, rest) ↔
      ∃ s, TimeText s ∧ file = s ++ 44 :: rest ∧ time = timeOf s := by
  rw [← readAheadTimestamp_iff, stateTimestamp]
  split <;> simp_all

/-- The octets at which a line ends. -/
def IsNewline (c : UInt8) : Prop := 13 = c ∨ 10 = c

/-- A tag has no comma and stays on its line. -/
def Clean (t : List UInt8) : Prop := ∀ c ∈ t, 44 ≠ c ∧ ¬ IsNewline c

/-- What fits of a tag in the buffer from an offset on, with the octet that ends it. -/
def written (t : List UInt8) (tagOffset : ℕ) (buffer : List UInt8) : List UInt8 :=
  buffer.take tagOffset ++ (t ++ [0]).take (buffer.length - tagOffset) ++
    buffer.drop (tagOffset + t.length + 1)

theorem written_full (t : List UInt8) {tagOffset : ℕ} {buffer : List UInt8}
    (full : buffer.length ≤ tagOffset) : written t tagOffset buffer = buffer := by
  rw [written, Nat.sub_eq_zero_of_le full, List.take_zero, List.append_nil,
    List.take_of_length_le full, List.drop_eq_nil_of_le (by omega), List.append_nil]

theorem written_nil (tagOffset : ℕ) (buffer : List UInt8) :
    written [] tagOffset buffer = buffer.set tagOffset 0 := by
  rcases Nat.lt_or_ge tagOffset buffer.length with room | full
  · obtain ⟨more, left⟩ := Nat.exists_eq_add_of_lt room
    rw [written, List.nil_append, left, show tagOffset + more + 1 - tagOffset = more + 1 by omega,
      List.take_succ_cons, List.take_nil, List.length_nil, Nat.add_zero, List.append_assoc,
      List.singleton_append, List.set_eq_take_append_cons_drop, if_pos room]
  · rw [written_full [] full, List.set_eq_of_length_le full]

theorem written_cons (c : UInt8) (t : List UInt8) {tagOffset : ℕ} {buffer : List UInt8}
    (room : tagOffset < buffer.length) :
    written t (tagOffset + 1) (buffer.set tagOffset c) = written (c :: t) tagOffset buffer := by
  have taken : (buffer.set tagOffset c).take (tagOffset + 1) = buffer.take tagOffset ++ [c] := by
    rw [List.take_set, List.take_succ_eq_append_getElem room, List.set_append_right _ _
      (List.length_take_le ..), List.length_take_of_le (Nat.le_of_lt room), Nat.sub_self,
      List.set_cons_zero]
  obtain ⟨more, left⟩ := Nat.exists_eq_add_of_lt room
  rw [written, written, taken, List.length_set, List.drop_set_of_lt (by omega), List.length_cons,
    left,
    show tagOffset + more + 1 - (tagOffset + 1) = more by omega,
    show tagOffset + more + 1 - tagOffset = more + 1 by omega, List.cons_append,
    List.take_succ_cons, List.append_assoc, List.append_assoc, List.singleton_append,
    List.append_assoc, show tagOffset + 1 + t.length + 1 = tagOffset + (t.length + 1) + 1 by omega]
  rfl

theorem stateTag_eq {t : List UInt8} (clean : Clean t) (rest : List UInt8) (tagOffset : ℕ)
    (tag : Option (List UInt8)) :
    stateTag tag tagOffset (t ++ 44 :: rest) = .ok (tag.map (written t tagOffset), rest) := by
  induction t generalizing tagOffset tag with
  | nil =>
    rw [List.nil_append, stateTag, if_pos rfl]
    congr 3
    funext buffer
    exact (written_nil tagOffset buffer).symm
  | cons c t ih =>
    obtain ⟨first, later⟩ := List.forall_mem_cons.mp clean
    have inside : ¬ (13 = c ∨ 10 = c) := first.2
    rw [List.cons_append, stateTag, if_neg first.1, if_neg inside]
    cases tag with
    | none =>
      have full : ¬ tagOffset < ((none : Option (List UInt8)).getD []).length := Nat.not_lt_zero _
      rw [if_neg full, ih later, Option.map_none, Option.map_none]
    | some buffer =>
      rw [Option.getD_some, Option.map_some]
      by_cases room : tagOffset < buffer.length
      · rw [if_pos room, ih later, Option.map_some, Option.map_some, written_cons c t room]
      · rw [if_neg room, ih later, Option.map_some, Option.map_some,
          written_full t (Nat.le_of_not_lt room), written_full (c :: t) (Nat.le_of_not_lt room)]

theorem stateTag_shape {tag tag' : Option (List UInt8)} {tagOffset : ℕ} {file rest : List UInt8}
    (read : stateTag tag tagOffset file = .ok (tag', rest)) :
    ∃ t, Clean t ∧ file = t ++ 44 :: rest := by
  induction file generalizing tag tagOffset with
  | nil => cases read
  | cons c file ih =>
    rw [stateTag] at read
    by_cases comma : 44 = c
    · rw [if_pos comma] at read
      cases read
      exact ⟨[], List.forall_mem_nil _, by rw [comma, List.nil_append]⟩
    · rw [if_neg comma] at read
      by_cases newline : 13 = c ∨ 10 = c
      · rw [if_pos newline] at read
        cases read
      · rw [if_neg newline] at read
        have later : ∃ t, Clean t ∧ file = t ++ 44 :: rest := by
          split at read
          · exact ih read
          · exact ih read
        obtain ⟨t, clean, parts⟩ := later
        exact ⟨c :: t, List.forall_mem_cons.mpr ⟨⟨comma, newline⟩, clean⟩, by
          rw [parts, List.cons_append]⟩

/-- `Tag=`. -/
def tagPrefix : List UInt8 := [84, 97, 103, 61]

/-- The text of an entry, with the line ends in front of it. -/
structure EntryText where
  newlines : List UInt8
  tag : Option (List UInt8)
  startTimestamp : List UInt8
  interval : List UInt8
  max : List UInt8
  histogram : List UInt8

namespace EntryText

/-- The text from the timestamps on. -/
def fields (e : EntryText) : List UInt8 :=
  e.startTimestamp ++ 44 :: (e.interval ++ 44 :: (e.max ++ 44 :: e.histogram))

def octets (e : EntryText) : List UInt8 :=
  e.newlines ++ (e.tag.elim [] fun t => tagPrefix ++ t ++ [44]) ++ e.fields

/-- An entry up to its histogram. Without a tag it starts with a digit. -/
structure Headed (e : EntryText) : Prop where
  newlines : ∀ c ∈ e.newlines, IsNewline c
  tag : ∀ t, e.tag = some t → Clean t
  start : e.tag = none → ∃ d rest, e.startTimestamp = d :: rest ∧ isDigit d = true
  startTimestamp : TimeText e.startTimestamp
  interval : TimeText e.interval
  max : TimeText e.max

structure WellFormed (e : EntryText) : Prop extends Headed e where
  histogram : ∀ c ∈ e.histogram, ¬ IsNewline c

/-- What the entry says, with a buffer for the tag. -/
def entry (e : EntryText) (tag : Option (List UInt8)) : LogEntry where
  startTimestamp := timeOf e.startTimestamp
  interval := timeOf e.interval
  max := timeOf e.max
  tag := e.tag.elim tag fun t => tag.map (written t 0)

end EntryText

theorem readAhead_iff {expected file rest : List UInt8} :
    readAhead expected file = (true, rest) ↔ file = expected ++ rest := by
  induction expected generalizing file with
  | nil => simp [readAhead]
  | cons p expected ih =>
    cases file with
    | nil => simp [readAhead]
    | cons c file =>
      rw [readAhead, List.cons_append, List.cons.injEq]
      by_cases same : p = c
      · rw [if_pos same, ih, and_iff_right same.symm]
      · rw [if_neg same]
        constructor
        · intro read
          cases read
        · intro parts
          exact absurd parts.1.symm same

theorem newline_ne {c : UInt8} (newline : IsNewline c) : 84 ≠ c ∧ isDigit c = false := by
  rcases newline with rfl | rfl
  · exact ⟨by decide, rfl⟩
  · exact ⟨by decide, rfl⟩

theorem stateInit_skip {newlines : List UInt8} (ends : ∀ c ∈ newlines, IsNewline c)
    (tag : Option (List UInt8)) (file : List UInt8) :
    stateInit tag (newlines ++ file) = stateInit tag file := by
  induction newlines with
  | nil => rfl
  | cons c newlines ih =>
    obtain ⟨first, later⟩ := List.forall_mem_cons.mp ends
    obtain ⟨untagged, no_digit⟩ := newline_ne first
    have newline : 13 = c ∨ 10 = c := first
    rw [List.cons_append, stateInit, if_neg untagged, if_neg (Bool.eq_false_iff.mp no_digit),
      if_pos newline, ih later]

theorem stateInit_tag {t : List UInt8} (clean : Clean t) (tag : Option (List UInt8))
    (rest : List UInt8) :
    stateInit tag (tagPrefix ++ t ++ 44 :: rest) = .ok (tag.map (written t 0), rest) := by
  have ahead :
      readAhead [97, 103, 61] ([97, 103, 61] ++ (t ++ 44 :: rest)) = (true, t ++ 44 :: rest) :=
    readAhead_iff.mpr rfl
  have start : tagPrefix ++ t ++ 44 :: rest = 84 :: ([97, 103, 61] ++ (t ++ 44 :: rest)) := by
    rw [tagPrefix, List.append_assoc]
    rfl
  rw [start, stateInit, if_pos rfl, ahead]
  exact stateTag_eq clean rest 0 tag

theorem stateInit_digit {d : UInt8} (digit : isDigit d = true) (tag : Option (List UInt8))
    (more : List UInt8) : stateInit tag (d :: more) = .ok (tag, d :: more) := by
  have untagged : ¬ 84 = d := by
    rintro rfl
    cases digit
  rw [stateInit, if_neg untagged, if_pos digit]

/-- What there is up to the first timestamp. -/
theorem stateInit_shape {tag tag' : Option (List UInt8)} {file rest : List UInt8}
    (read : stateInit tag file = .ok (tag', rest)) :
    ∃ newlines, (∀ c ∈ newlines, IsNewline c) ∧
      ((∃ t, Clean t ∧ file = newlines ++ (tagPrefix ++ t ++ 44 :: rest)) ∨
        ∃ d more, isDigit d = true ∧ rest = d :: more ∧ file = newlines ++ rest) := by
  induction file with
  | nil => cases read
  | cons c file ih =>
    rw [stateInit] at read
    by_cases tagged : 84 = c
    · subst tagged
      rw [if_pos rfl] at read
      cases ahead : readAhead [97, 103, 61] file with
      | mk found left =>
        rw [ahead] at read
        cases found with
        | false => cases read
        | true =>
          obtain ⟨t, clean, rfl⟩ := stateTag_shape read
          refine ⟨[], List.forall_mem_nil _, .inl ⟨t, clean, ?_⟩⟩
          rw [readAhead_iff.mp ahead, tagPrefix, List.append_assoc]
          rfl
    · rw [if_neg tagged] at read
      by_cases digit : isDigit c = true
      · rw [if_pos digit] at read
        cases read
        exact ⟨[], List.forall_mem_nil _, .inr ⟨c, file, digit, rfl, rfl⟩⟩
      · rw [if_neg digit] at read
        by_cases newline : 13 = c ∨ 10 = c
        · rw [if_pos newline] at read
          obtain ⟨newlines, ends, parts⟩ := ih read
          refine ⟨c :: newlines, List.forall_mem_cons.mpr ⟨newline, ends⟩, ?_⟩
          rcases parts with ⟨t, clean, rfl⟩ | ⟨d, more, digit, rfl, rfl⟩
          · exact .inl ⟨t, clean, rfl⟩
          · exact .inr ⟨d, more, digit, rfl, rfl⟩
        · rw [if_neg newline] at read
          cases read

theorem stateTimestamps_iff {tag : Option (List UInt8)} {file rest : List UInt8}
    {entry : LogEntry} :
    stateTimestamps tag file = .ok (entry, rest) ↔ ∃ start interval max, TimeText start ∧
      TimeText interval ∧ TimeText max ∧
      file = start ++ 44 :: (interval ++ 44 :: (max ++ 44 :: rest)) ∧
      entry = ⟨timeOf start, timeOf interval, timeOf max, tag⟩ := by
  constructor
  · intro read
    rw [stateTimestamps] at read
    cases first : stateTimestamp file with
    | error failure =>
      rw [first] at read
      cases read
    | ok one =>
      obtain ⟨start, startText, rfl, startTime⟩ := stateTimestamp_iff.mp first
      rw [first] at read
      dsimp only at read
      cases second : stateTimestamp one.2 with
      | error failure =>
        rw [second] at read
        cases read
      | ok two =>
        obtain ⟨interval, intervalText, parts, intervalTime⟩ := stateTimestamp_iff.mp second
        rw [second] at read
        dsimp only at read
        cases third : stateTimestamp two.2 with
        | error failure =>
          rw [third] at read
          cases read
        | ok three =>
          obtain ⟨max, maxText, more, maxTime⟩ := stateTimestamp_iff.mp third
          rw [third] at read
          cases read
          refine ⟨start, interval, max, startText, intervalText, maxText, ?_, ?_⟩
          · rw [parts, more]
          · rw [startTime, intervalTime, maxTime]
  · rintro ⟨start, interval, max, startText, intervalText, maxText, rfl, rfl⟩
    rw [stateTimestamps, stateTimestamp_iff.mpr ⟨start, startText, rfl, rfl⟩]
    dsimp only
    rw [stateTimestamp_iff.mpr ⟨interval, intervalText, rfl, rfl⟩]
    dsimp only
    rw [stateTimestamp_iff.mpr ⟨max, maxText, rfl, rfl⟩]

/-- The file ends after a text, or goes on after the end of the line. -/
def EndsWith (file text rest : List UInt8) : Prop :=
  file = text ∧ rest = [] ∨ ∃ c, IsNewline c ∧ file = text ++ c :: rest

theorem stateHistogram_eq {file text rest : List UInt8} (inline : ∀ c ∈ text, ¬ IsNewline c)
    (ends : EndsWith file text rest) (acc : List UInt8) :
    stateHistogram acc file = (acc ++ text, rest) := by
  induction text generalizing file acc with
  | nil =>
    rcases ends with ⟨rfl, rfl⟩ | ⟨c, newline, rfl⟩
    · rw [stateHistogram, List.append_nil]
    · have last : ¬ (c ≠ 13 ∧ c ≠ 10) := by
        rintro ⟨first, second⟩
        exact newline.elim (fun same => first same.symm) fun same => second same.symm
      rw [List.nil_append, stateHistogram, if_neg last, List.append_nil]
  | cons c text ih =>
    obtain ⟨first, later⟩ := List.forall_mem_cons.mp inline
    have inside : c ≠ 13 ∧ c ≠ 10 :=
      ⟨fun same => first (.inl same.symm), fun same => first (.inr same.symm)⟩
    have left : ∃ file', file = c :: file' ∧ EndsWith file' text rest := by
      rcases ends with ⟨rfl, done⟩ | ⟨d, newline, rfl⟩
      · exact ⟨text, rfl, .inl ⟨rfl, done⟩⟩
      · exact ⟨text ++ d :: rest, rfl, .inr ⟨d, newline, rfl⟩⟩
    obtain ⟨file', rfl, ends'⟩ := left
    rw [stateHistogram, if_pos inside, ih later ends', List.append_assoc, List.singleton_append]

theorem exists_endsWith (file : List UInt8) :
    ∃ text rest, (∀ c ∈ text, ¬ IsNewline c) ∧ EndsWith file text rest := by
  induction file with
  | nil => exact ⟨[], [], List.forall_mem_nil _, .inl ⟨rfl, rfl⟩⟩
  | cons c file ih =>
    by_cases newline : 13 = c ∨ 10 = c
    · exact ⟨[], file, List.forall_mem_nil _, .inr ⟨c, newline, rfl⟩⟩
    · obtain ⟨text, rest, inline, ends⟩ := ih
      refine ⟨c :: text, rest, List.forall_mem_cons.mpr ⟨newline, inline⟩, ?_⟩
      rcases ends with ⟨rfl, done⟩ | ⟨d, ended, rfl⟩
      · exact .inl ⟨rfl, done⟩
      · exact .inr ⟨d, ended, rfl⟩

theorem stateHistogram_iff {file text rest : List UInt8} :
    stateHistogram [] file = (text, rest) ↔
      (∀ c ∈ text, ¬ IsNewline c) ∧ EndsWith file text rest := by
  constructor
  · intro read
    obtain ⟨text', rest', inline, ends⟩ := exists_endsWith file
    rw [stateHistogram_eq inline ends] at read
    cases read
    exact ⟨inline, ends⟩
  · rintro ⟨inline, ends⟩
    exact stateHistogram_eq inline ends []

theorem EndsWith.append {file text rest : List UInt8} (ends : EndsWith file text rest)
    (front : List UInt8) : EndsWith (front ++ file) (front ++ text) rest := by
  rcases ends with ⟨rfl, done⟩ | ⟨c, newline, rfl⟩
  · exact .inl ⟨rfl, done⟩
  · exact .inr ⟨c, newline, by rw [List.append_assoc]⟩

theorem EndsWith.split {file text rest : List UInt8} (ends : EndsWith file text rest) :
    ∃ suffix, file = text ++ suffix ∧ EndsWith suffix [] rest := by
  rcases ends with ⟨rfl, done⟩ | ⟨c, newline, rfl⟩
  · exact ⟨[], (List.append_nil _).symm, .inl ⟨rfl, done⟩⟩
  · exact ⟨c :: rest, rfl, .inr ⟨c, newline, rfl⟩⟩

/-- The text that is in front of the timestamps. -/
theorem stateInit_octets {e : EntryText} (wellFormed : e.WellFormed) (tag : Option (List UInt8))
    (rest : List UInt8) : stateInit tag (e.octets ++ rest) =
      .ok (e.tag.elim tag fun t => tag.map (written t 0), e.fields ++ rest) := by
  rw [EntryText.octets, List.append_assoc, List.append_assoc, stateInit_skip wellFormed.newlines]
  cases tagged : e.tag with
  | none =>
    obtain ⟨d, more, start, digit⟩ := wellFormed.start tagged
    rw [EntryText.fields, start]
    exact stateInit_digit digit tag _
  | some t =>
    have clean := wellFormed.tag t tagged
    dsimp only [Option.elim_some]
    rw [List.append_assoc, List.singleton_append]
    exact stateInit_tag clean tag _

theorem parseEntry_octets {e : EntryText} (wellFormed : e.WellFormed) {file rest : List UInt8}
    (ends : EndsWith file e.octets rest) (tag : Option (List UInt8)) :
    parseEntry tag file = .ok (e.entry tag, e.histogram, rest) := by
  obtain ⟨suffix, rfl, ended⟩ := ends.split
  have timestamps : stateTimestamps (e.tag.elim tag fun t => tag.map (written t 0))
      (e.fields ++ suffix) = .ok (e.entry tag, e.histogram ++ suffix) := by
    refine stateTimestamps_iff.mpr ⟨e.startTimestamp, e.interval, e.max,
      wellFormed.startTimestamp, wellFormed.interval, wellFormed.max, ?_, rfl⟩
    simp [EntryText.fields]
  have histogram : stateHistogram [] (e.histogram ++ suffix) = (e.histogram, rest) := by
    have appended := ended.append e.histogram
    rw [List.append_nil] at appended
    exact stateHistogram_iff.mpr ⟨wellFormed.histogram, appended⟩
  rw [parseEntry, stateInit_octets wellFormed]
  dsimp only
  rw [timestamps]
  dsimp only
  rw [histogram]

/-- The reader takes the octets of a file as an entry exactly if they are the text of one, up to
the end of the file or of a line, and then reads from the text what it says. -/
theorem entry_parsed_iff (tag : Option (List UInt8)) (file : List UInt8) (entry : LogEntry)
    (text rest : List UInt8) :
    parseEntry tag file = .ok (entry, text, rest) ↔ ∃ e : EntryText, e.WellFormed ∧
      EndsWith file e.octets rest ∧ entry = e.entry tag ∧ text = e.histogram := by
  constructor
  · intro read
    rw [parseEntry] at read
    cases first : stateInit tag file with
    | error result =>
      rw [first] at read
      cases read
    | ok found =>
      obtain ⟨tag', file'⟩ := found
      rw [first] at read
      dsimp only at read
      cases second : stateTimestamps tag' file' with
      | error result =>
        rw [second] at read
        cases read
      | ok found =>
        obtain ⟨entry', file''⟩ := found
        rw [second] at read
        dsimp only at read
        cases third : stateHistogram [] file'' with
        | mk text' rest' =>
          rw [third] at read
          cases read
          obtain ⟨inline, ends⟩ := stateHistogram_iff.mp third
          obtain ⟨start, interval, max, startText, intervalText, maxText, rfl, rfl⟩ :=
            stateTimestamps_iff.mp second
          have joined (tagText : Option (List UInt8)) (newlines : List UInt8) :
              EndsWith (start ++ 44 :: (interval ++ 44 :: (max ++ 44 :: file'')))
                (EntryText.mk newlines tagText start interval max text).fields rest := by
            have appended := ends.append (start ++ 44 :: (interval ++ 44 :: (max ++ [44])))
            simpa [EntryText.fields] using appended
          obtain ⟨newlines, newline, ⟨t, clean, rfl⟩ | ⟨d, more, digit, here, rfl⟩⟩ :=
            stateInit_shape first
          · rw [stateInit_skip newline, stateInit_tag clean] at first
            cases first
            refine ⟨⟨newlines, some t, start, interval, max, text⟩, ⟨⟨newline, ?_, ?_,
              startText, intervalText, maxText⟩, inline⟩, ?_, rfl, rfl⟩
            · rintro t' ⟨⟩
              exact clean
            · rintro ⟨⟩
            · have appended :=
                (joined (some t) newlines).append (newlines ++ (tagPrefix ++ t ++ [44]))
              simpa [EntryText.octets] using appended
          · rw [stateInit_skip newline, here, stateInit_digit digit] at first
            cases first
            refine ⟨⟨newlines, none, start, interval, max, text⟩, ⟨⟨newline, ?_, ?_,
              startText, intervalText, maxText⟩, inline⟩, ?_, rfl, rfl⟩
            · rintro t ⟨⟩
            · intro _
              cases start with
              | nil =>
                cases here
                cases digit
              | cons d' start =>
                cases here
                exact ⟨d, start, rfl, digit⟩
            · have appended := (joined none newlines).append newlines
              simpa [EntryText.octets] using appended
  · rintro ⟨e, wellFormed, ends, rfl, rfl⟩
    exact parseEntry_octets wellFormed ends tag

end YcsbCloud.Guarantees.HdrLogReader
