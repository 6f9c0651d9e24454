import YcsbCloud.Library.PartialMap
import YcsbCloud.Source.Properties

/-!
# Property files and what `Load` makes of them

A property file is laid out by the lines it has: properties with blanks around key
and value, comments, and lines that no property can be read from. `Load` sets the
properties of any layout in order and nothing else.
-/
namespace YcsbCloud.Guarantees.PropertyFiles
open Library Source Source.Properties

/-- White space that ends no line. -/
structure Blank where
  text : Bytes
  space : ∀ c ∈ text, isspace c
  oneLine : newline ∉ text

/-- A key and a value that the format can hold. -/
structure Property where
  key : Bytes
  value : Bytes
  asciiText : ∀ c ∈ key ++ value, c < 128
  keyTrimmed : trim key = key
  valueTrimmed : trim value = value
  keyOneLine : newline ∉ key
  valueOneLine : newline ∉ value
  keyNoEquals : equals ∉ key
  keyNoComment : key.head? ≠ some numberSign

/-- What a key and a value need to be one, as one test. -/
def Property.of (key value : Bytes) (fits : (key ++ value).all (· < 128) = true ∧ trim key = key ∧
    trim value = value ∧ newline ∉ key ∧ newline ∉ value ∧ equals ∉ key ∧
    key.head? ≠ some numberSign) : Property :=
  ⟨key, value, fun c member => of_decide_eq_true (List.all_eq_true.mp fits.1 c member), fits.2.1, fits.2.2.1, fits.2.2.2.1, fits.2.2.2.2.1, fits.2.2.2.2.2.1,
    fits.2.2.2.2.2.2⟩

/-- A line of a property file, without its end. -/
inductive Line where
  | property (beforeKey : Blank) (afterKey : Blank) (beforeValue : Blank) (afterValue : Blank)
      (pair : Property)
  | comment (text : Bytes) (oneLine : newline ∉ text)
  | noProperty (text : Bytes) (oneLine : newline ∉ text) (noEquals : equals ∉ text)

namespace Line

def text : Line → Bytes
  | .property beforeKey afterKey beforeValue afterValue pair =>
    beforeKey.text ++ pair.key ++ afterKey.text ++ equals ::
      (beforeValue.text ++ pair.value ++ afterValue.text)
  | .comment text _ => numberSign :: text
  | .noProperty text _ _ => text

/-- The property of a line, if it has one. -/
def pair? : Line → Option (Bytes × Bytes)
  | .property _ _ _ _ pair => some (pair.key, pair.value)
  | .comment _ _ | .noProperty _ _ _ => none

end Line

/-- How a line ends. -/
inductive LineEnd where
  | lf | crlf
  deriving DecidableEq, Repr

/-- What stands between a line and its newline. -/
def LineEnd.carriage : LineEnd → Bytes
  | .lf => []
  | .crlf => [13]

/-- The lines that end, and one that the file ends in the middle of. -/
structure Layout where
  ended : List (Line × LineEnd)
  last : Option Line

namespace Layout

def text (layout : Layout) : Bytes :=
  (layout.ended.flatMap fun line => line.1.text ++ line.2.carriage ++ [newline]) ++
    (layout.last.elim [] Line.text)

/-- The properties in the order of the file. -/
def pairs (layout : Layout) : List (Bytes × Bytes) :=
  (layout.ended.map Prod.fst ++ layout.last.toList).filterMap Line.pair?

end Layout

/-- The assignments of a list, from left to right. -/
def setAll (p : Properties) (pairs : List (Bytes × Bytes)) : Properties :=
  pairs.foldl (fun p pair => p.setProperty pair.1 pair.2) p

/-- The last assignment to a key counts, and a key without one keeps its value. -/
theorem setAll_lookup (p : Properties) (pairs : List (Bytes × Bytes)) (key : Bytes) :
    (setAll p pairs)[key]? = (pairs.reverse.lookup key).or p[key]? := by
  rw [← PartialMap.overwrite_eq_reverse_lookup]
  induction pairs generalizing p with
  | nil => rfl
  | cons pair rest ih =>
    rw [setAll, List.foldl_cons, ← setAll, ih, PartialMap.overwrite_cons]
    congr 1
    funext queried
    rw [getElem?_setProperty, Function.update_apply]
    simp only [eq_comm]

theorem blank_no_equals {text : Bytes} (blank : ∀ c ∈ text, isspace c) : equals ∉ text := by
  intro member
  exact absurd (blank equals member) (by decide)

theorem blank_no_comment {text : Bytes} (blank : ∀ c ∈ text, isspace c) :
    text.head? ≠ some numberSign := by
  intro first
  exact absurd (blank numberSign (List.mem_of_head? first)) (by decide)

/-- A line is split at its first equals sign unless a comment sign starts it. -/
theorem loadLine_assignment (p : Properties) (left right : Bytes) (noEquals : equals ∉ left)
    (noComment : left.head? ≠ some numberSign) :
    loadLine p (left ++ equals :: right) = p.setProperty (trim left) (trim right) := by
  have first : (left ++ equals :: right).headD 0 ≠ numberSign := by
    cases left with
    | nil => exact (by decide : equals ≠ numberSign)
    | cons c rest => simpa using noComment
  have clean : ∀ c ∈ left, ¬ (c == equals) = true := by
    intro c member
    have different : c ≠ equals := fun same => noEquals (same ▸ member)
    simpa using different
  have split : (left ++ equals :: right).findIdx? (· == equals) = some left.length :=
    Delimited.findIdx?_delimited (· == equals) clean (by decide)
  rw [loadLine, if_neg first, split]
  dsimp only
  rw [List.take_left' rfl, ← List.drop_drop, List.drop_left' rfl, List.drop_one, List.tail_cons]

theorem loadLine_no_property (p : Properties) (line : Bytes) (noEquals : equals ∉ line) :
    loadLine p line = p := by
  have absent : line.findIdx? (· == equals) = none := by
    rw [List.findIdx?_eq_none_iff]
    intro c member
    have different : c ≠ equals := fun same => noEquals (same ▸ member)
    simpa using different
  rw [loadLine, absent]
  exact ite_self p

/-- A line does to the properties what its property says; a carriage return in front
of the newline is one more blank of it. -/
theorem loadLine_text (p : Properties) (line : Line) (carriage : Bytes)
    (blank : ∀ c ∈ carriage, isspace c) :
    loadLine p (line.text ++ carriage) =
      line.pair?.elim p fun pair => p.setProperty pair.1 pair.2 := by
  cases line with
  | property beforeKey afterKey beforeValue afterValue pair =>
    have noEquals : equals ∉ beforeKey.text ++ pair.key ++ afterKey.text := by
      simp only [List.mem_append, not_or]
      exact ⟨⟨blank_no_equals beforeKey.space, pair.keyNoEquals⟩, blank_no_equals afterKey.space⟩
    have noComment : (beforeKey.text ++ pair.key ++ afterKey.text).head? ≠ some numberSign := by
      rw [List.head?_append, List.head?_append]
      intro first
      rcases Option.or_eq_some_iff.mp first with early | ⟨_, late⟩
      · rcases Option.or_eq_some_iff.mp early with start | ⟨_, key⟩
        · exact blank_no_comment beforeKey.space start
        · exact pair.keyNoComment key
      · exact blank_no_comment afterKey.space late
    have behind : ∀ c ∈ afterValue.text ++ carriage, isspace c := by
      intro c member
      rcases List.mem_append.mp member with inside | returned
      · exact afterValue.space c inside
      · exact blank c returned
    have key := Delimited.trim_padded beforeKey.space pair.keyTrimmed afterKey.space
    have value := Delimited.trim_padded beforeValue.space pair.valueTrimmed behind
    rw [Line.text, List.append_assoc, List.cons_append,
      loadLine_assignment p _ _ noEquals noComment, List.append_assoc _ _ carriage]
    exact congrArg₂ p.setProperty key value
  | comment text oneLine => rfl
  | noProperty text oneLine noEquals =>
    refine loadLine_no_property p _ ?_
    rw [Line.text, List.mem_append, not_or]
    exact ⟨noEquals, blank_no_equals blank⟩

theorem text_oneLine (line : Line) : newline ∉ line.text := by
  cases line with
  | property beforeKey afterKey beforeValue afterValue pair =>
    simp only [Line.text, List.mem_append, List.mem_cons, not_or]
    exact ⟨⟨⟨beforeKey.oneLine, pair.keyOneLine⟩, afterKey.oneLine⟩, by decide,
      ⟨beforeValue.oneLine, pair.valueOneLine⟩, afterValue.oneLine⟩
  | comment text oneLine =>
    rw [Line.text, List.mem_cons, not_or]
    exact ⟨by decide, oneLine⟩
  | noProperty text oneLine noEquals => exact oneLine

theorem carriage_blank (lineEnd : LineEnd) : ∀ c ∈ lineEnd.carriage, isspace c := by
  intro c member
  cases lineEnd with
  | lf => cases member
  | crlf =>
    rw [LineEnd.carriage, List.mem_singleton] at member
    subst c
    decide

theorem carriage_oneLine (lineEnd : LineEnd) : newline ∉ lineEnd.carriage := by
  cases lineEnd <;> decide

theorem setAll_pair? (p : Properties) (line : Line) (rest : List Line) :
    setAll (line.pair?.elim p fun pair => p.setProperty pair.1 pair.2)
        (rest.filterMap Line.pair?) = setAll p ((line :: rest).filterMap Line.pair?) := by
  rw [List.filterMap_cons]
  cases line.pair? with
  | none => rfl
  | some pair => rfl

/-- The loop on the lines that end, with the rest of the file behind them. -/
theorem foldl_ended (p : Properties) (ended : List (Line × LineEnd)) (rest : Bytes) :
    ((ended.flatMap (fun line => line.1.text ++ line.2.carriage ++ [newline]) ++ rest).splitOn
        newline).foldl loadLine p =
      (rest.splitOn newline).foldl loadLine
        (setAll p ((ended.map Prod.fst).filterMap Line.pair?)) := by
  induction ended generalizing p with
  | nil => rfl
  | cons line others ih =>
    have oneLine : newline ∉ line.1.text ++ line.2.carriage := by
      rw [List.mem_append, not_or]
      exact ⟨text_oneLine line.1, carriage_oneLine line.2⟩
    rw [List.flatMap_cons, List.append_assoc, List.append_assoc _ [newline], List.singleton_append,
      List.splitOn_append_cons_self_of_not_mem oneLine, List.foldl_cons,
      loadLine_text p line.1 _ (carriage_blank line.2), ih, List.map_cons, setAll_pair?]

/-- Whatever its layout, a file that opens is read to its end, and its properties are
set in order. -/
theorem load_reads_layout (p : Properties) (layout : Layout) :
    load p ⟨true, layout.text, false⟩ = .ok (true, setAll p layout.pairs) ∧
      ∀ key, (setAll p layout.pairs)[key]? = (layout.pairs.reverse.lookup key).or p[key]? := by
  refine ⟨?_, setAll_lookup p layout.pairs⟩
  have last : ((layout.last.elim [] Line.text).splitOn newline).foldl loadLine
      (setAll p ((layout.ended.map Prod.fst).filterMap Line.pair?)) =
      setAll (setAll p ((layout.ended.map Prod.fst).filterMap Line.pair?))
        (layout.last.toList.filterMap Line.pair?) := by
    cases layout.last with
    | none => rfl
    | some line =>
      have unended := loadLine_text
        (setAll p ((layout.ended.map Prod.fst).filterMap Line.pair?)) line [] (by simp)
      rw [List.append_nil] at unended
      rw [Option.elim_some, List.splitOn_eq_singleton (text_oneLine line), List.foldl_cons, unended]
      exact setAll_pair? _ line []
  have whole : loadLoop ⟨true, layout.text, false⟩ p = setAll p layout.pairs := by
    rw [loadLoop_eq, Layout.text, foldl_ended, last, Layout.pairs, List.filterMap_append, setAll,
      setAll, setAll, List.foldl_append]
  rw [load, whole]
  rfl

/-- A run of blanks. -/
def spaces (n : Nat) : Blank where
  text := List.replicate n 32
  space := fun c member => by rw [List.eq_of_mem_replicate member]; decide
  oneLine := fun member => absurd (List.eq_of_mem_replicate member) (by decide)

/-- A comment and a padded property, each with a carriage return, a line of no property,
and the same key once more without a newline behind it. -/
def sampleLayout : Layout where
  ended :=
    [(.comment (ascii [' ', 't', '=', '9']) (by decide), .crlf),
      (.property (spaces 2) (spaces 1) (spaces 1) (spaces 1)
        (.of (ascii ['t']) (ascii ['4']) (by decide)), .crlf),
      (.noProperty (ascii ['t', ' ', '7']) (by decide) (by decide), .lf),
      (.property (spaces 0) (spaces 0) (spaces 0) (spaces 0)
        (.of (ascii ['h']) (ascii ['a', '=', 'b']) (by decide)), .lf)]
  last := some (.property (spaces 0) (spaces 0) (spaces 0) (spaces 0)
    (.of (ascii ['t']) (ascii ['8']) (by decide)))

/-- The file `# t=9`, `  t = 4 `, `t 7`, `h=a=b`, `t=8`. -/
theorem load_reads_layout_sample : ∃ p : Properties,
    Properties.load ∅ ⟨true, ascii ['#', ' ', 't', '=', '9', '\r', '\n', ' ', ' ', 't', ' ', '=', ' ',
      '4', ' ', '\r', '\n', 't', ' ', '7', '\n', 'h', '=', 'a', '=', 'b', '\n', 't', '=', '8'],
      false⟩ = .ok (true, p) ∧
    p[ascii ['t']]? = some (ascii ['8']) ∧ p[ascii ['h']]? = some (ascii ['a', '=', 'b']) := by
  obtain ⟨loaded, found⟩ := load_reads_layout ∅ sampleLayout
  refine ⟨_, loaded, ?_, ?_⟩
  · rw [found]
    exact rfl
  · rw [found]
    exact rfl

end YcsbCloud.Guarantees.PropertyFiles
