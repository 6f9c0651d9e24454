import YcsbCloud.Source.CommandLine

/-!
# The grammar of the command line

`ParseCommandLine` returns for a non-empty sequence of options with values, and then
has applied them in order. Any other arguments end in the usage message or the
message for an unknown option. With no arguments at all, not even a command name,
the usage message is made from `argv[0]` all the same.
-/
namespace YcsbCloud.Guarantees.CommandLine
open Library Library.Machine Source Source.CommandLine

/-- The arguments are options, each with its value behind it. -/
inductive Options : List CStr → List (Flag × CStr) → Prop where
  | nil : Options [] []
  | cons {option value : CStr} {arguments : List CStr} {options : List (Flag × CStr)} (flag : Flag)
      (named : option.val = flag.text) (rest : Options arguments options) :
      Options (option :: value :: arguments) ((flag, value) :: options)

/-- What one option makes of the properties: `-P` splices its file in. -/
def setOption (files : CStr → Option Bytes) (props : Properties) (option : Flag × CStr) :
    Properties :=
  match option.1.property with
  | some property => props.setProperty property option.2.val
  | none => Properties.loadLoop (openFile files option.2) props

/-- The options from left to right. -/
def override (files : CStr → Option Bytes) (props : Properties) (options : List (Flag × CStr)) :
    Properties := options.foldl (setOption files) props

/-- The name of the last file among the options, or else another name. -/
def lastFile (filename : Bytes) (options : List (Flag × CStr)) : Bytes :=
  (options.filter fun option => option.1 = .P).getLast?.elim filename fun option => option.2.val

/-- The files that the arguments name, each behind a `-P`, can be opened. -/
def FilesOpen (files : CStr → Option Bytes) : List CStr → Prop
  | option :: value :: rest =>
    (option.val = Flag.P.text → (files value).isSome) ∧ FilesOpen files rest
  | _ => True

variable {files : CStr → Option Bytes} {argv : List CStr}

theorem Options.length {arguments : List CStr} {options : List (Flag × CStr)}
    (parsed : Options arguments options) : arguments.length = 2 * options.length := by
  induction parsed with
  | nil => rfl
  | cons flag named rest ih =>
    rw [List.length_cons, List.length_cons, List.length_cons, ih]
    omega

theorem Options.head {option : CStr} {arguments : List CStr} {options : List (Flag × CStr)}
    (parsed : Options (option :: arguments) options) :
    ∃ flag value rest later, option.val = flag.text ∧ arguments = value :: rest ∧
      options = (flag, value) :: later ∧ Options rest later := by
  cases parsed with
  | cons flag named rest => exact ⟨flag, _, _, _, named, rfl, rfl, rest⟩

/-- Arguments are options in one way at most. -/
theorem Options.unique {arguments : List CStr} {options others : List (Flag × CStr)}
    (parsed : Options arguments options) (again : Options arguments others) : options = others := by
  induction parsed generalizing others with
  | nil =>
    cases again with
    | nil => rfl
  | cons flag named rest ih =>
    cases again with
    | cons other named' rest' =>
      have same := (Flag.of?_eq_some_iff _ flag).mpr named
      rw [(Flag.of?_eq_some_iff _ other).mpr named', Option.some.injEq] at same
      rw [ih rest', same]

theorem text_dash (flag : Flag) : strStartWith flag.text (ascii ['-']) = true := by
  cases flag <;> decide

theorem property_eq_none_iff (flag : Flag) : flag.property = none ↔ flag = .P := by
  cases flag <;> decide

/-- With a file that opens, the branch of an option always goes on. -/
theorem applyOption_eq (flag : Flag) (value : CStr) (opens : flag = .P → (files value).isSome)
    (filename : Bytes) (props : Properties) :
    applyOption files flag value filename props =
      .ok (lastFile filename [(flag, value)], setOption files props (flag, value)) := by
  cases property : flag.property with
  | none =>
    have file := (property_eq_none_iff flag).mp property
    obtain ⟨text, opened⟩ := Option.isSome_iff_exists.mp (opens file)
    subst file
    simp only [applyOption, setOption, property, openFile, opened, Properties.load, Bool.not_true,
      Bool.false_eq_true, if_false]
    rfl
  | some name =>
    have simple : flag ≠ .P := by
      intro file
      rw [(property_eq_none_iff flag).mpr file] at property
      cases property
    simp only [applyOption, setOption, property, lastFile, simple, decide_false,
      List.filter_cons_of_neg, List.filter_nil, List.getLast?_nil, Option.elim_none,
      Bool.false_eq_true, not_false_eq_true]

theorem lastFile_cons (filename : Bytes) (option : Flag × CStr) (rest : List (Flag × CStr)) :
    lastFile filename (option :: rest) = lastFile (lastFile filename [option]) rest := by
  by_cases file : option.1 = .P
  · simp only [lastFile, List.filter_cons, file, decide_true, if_true, List.getLast?_cons,
      List.filter_nil, List.getLast?_nil, Option.getD_none, Option.elim_some]
    cases (rest.filter fun option => option.1 = .P).getLast? with
    | none => rfl
    | some last => rfl
  · simp only [lastFile, List.filter_cons, file, decide_false, Bool.false_eq_true, if_false,
      List.filter_nil, List.getLast?_nil, Option.elim_none]

theorem argument_eq {index : Nat} (within : index < argv.length) :
    argument argv index = .ok argv[index] := by
  rw [argument, List.getElem?_eq_getElem within]

/-- With a command name to print, the usage message ends the program. -/
theorem usageExit_eq {α : Type} (named : argv ≠ []) :
    usageExit (α := α) argv = .error .usage := by
  rw [usageExit, argument_eq (List.length_pos_iff.mpr named)]
  rfl

/-- The loop stops where the arguments do, or at one that is no option. -/
theorem parseLoop_stop {argindex : Nat} (filename : Bytes) (props : Properties)
    (stop : ∀ within : argindex < argv.length,
      strStartWith argv[argindex].val (ascii ['-']) = false) :
    parseLoop files argv argindex filename props = .ok (argindex, filename, props) := by
  rw [parseLoop]
  split
  next within =>
    rw [argument_eq within]
    exact if_neg (by simp [stop within])
  · rfl

theorem parseLoop_option {argindex : Nat} (filename : Bytes) (props : Properties)
    (within : argindex < argv.length)
    (dash : strStartWith argv[argindex].val (ascii ['-']) = true) :
    parseLoop files argv argindex filename props =
      parseOption files argv argindex argv[argindex] filename props >>= fun parsed =>
        parseLoop files argv (argindex + 1 + 1) parsed.1 parsed.2 := by
  rw [parseLoop, dif_pos within, argument_eq within]
  exact if_pos dash

/-- One round of the loop: the value is read behind the option. -/
theorem parseLoop_goes_on {argindex : Nat} {flag : Flag} (filename : Bytes) (props : Properties)
    (within : argindex < argv.length) (known : Flag.of? argv[argindex].val = some flag)
    (last : argindex + 1 < argv.length)
    (opened : flag = .P → (files argv[argindex + 1]).isSome) :
    parseLoop files argv argindex filename props =
      parseLoop files argv (argindex + 1 + 1) (lastFile filename [(flag, argv[argindex + 1])])
        (setOption files props (flag, argv[argindex + 1])) := by
  have dash := text_dash flag
  rw [← (Flag.of?_eq_some_iff _ flag).mp known] at dash
  have parsed : parseOption files argv argindex argv[argindex] filename props =
      .ok (lastFile filename [(flag, argv[argindex + 1])],
        setOption files props (flag, argv[argindex + 1])) := by
    rw [parseOption, known]
    dsimp only
    rw [if_neg (Nat.not_le.mpr last), argument_eq last]
    exact applyOption_eq flag _ opened filename props
  rw [parseLoop_option filename props within dash, parsed]
  rfl

/-- Arguments that the loop does not get through. -/
def Refused (files : CStr → Option Bytes) (argv : List CStr) (argindex : Nat) (filename : Bytes)
    (props : Properties) : Prop :=
  (∃ stopped name after, stopped < argv.length ∧
    parseLoop files argv argindex filename props = .ok (stopped, name, after)) ∨
  parseLoop files argv argindex filename props = .error .usage ∨
  ∃ option, parseLoop files argv argindex filename props = .error (.unknownOption option)

/-- From an index on, the loop gets through the arguments if they are options, and has
then applied them; otherwise it stops short of their end. -/
def Classified (files : CStr → Option Bytes) (argv : List CStr) (argindex : Nat) (filename : Bytes)
    (props : Properties) : Prop :=
  (∃ options, Options (argv.drop argindex) options ∧
    parseLoop files argv argindex filename props =
      .ok (argv.length, lastFile filename options, override files props options)) ∨
  (∀ options, ¬ Options (argv.drop argindex) options) ∧
    Refused files argv argindex filename props

theorem classified_end (filename : Bytes) (props : Properties) :
    Classified files argv argv.length filename props := by
  refine .inl ⟨[], ?_, ?_⟩
  · rw [List.drop_length]
    exact .nil
  · exact parseLoop_stop filename props fun within => absurd within (lt_irrefl _)

/-- An argument that is none of the options ends the loop, or the program. -/
theorem classified_unknown {argindex : Nat} (filename : Bytes) (props : Properties)
    (within : argindex < argv.length) (unknown : Flag.of? argv[argindex].val = none) :
    Classified files argv argindex filename props := by
  refine .inr ⟨?_, ?_⟩
  · intro options parsed
    rw [List.drop_eq_getElem_cons within] at parsed
    obtain ⟨flag, _, _, _, matched, _⟩ := parsed.head
    rw [(Flag.of?_eq_some_iff _ flag).mpr matched] at unknown
    cases unknown
  · by_cases dash : strStartWith argv[argindex].val (ascii ['-']) = true
    · refine .inr (.inr ⟨argv[argindex], ?_⟩)
      rw [parseLoop_option filename props within dash, parseOption, unknown]
      rfl
    · exact .inl ⟨argindex, filename, props, within,
        parseLoop_stop filename props fun _ => by simpa using dash⟩

/-- An option without a value ends the program. -/
theorem classified_valueless {argindex : Nat} {flag : Flag} (named : argv ≠ []) (filename : Bytes)
    (props : Properties) (within : argindex < argv.length)
    (known : Flag.of? argv[argindex].val = some flag) (last : argv.length ≤ argindex + 1) :
    Classified files argv argindex filename props := by
  have dash := text_dash flag
  rw [← (Flag.of?_eq_some_iff _ flag).mp known] at dash
  refine .inr ⟨?_, .inr (.inl ?_)⟩
  · intro options parsed
    rw [List.drop_eq_getElem_cons within, List.drop_eq_nil_of_le last] at parsed
    obtain ⟨_, _, _, _, _, behind, _⟩ := parsed.head
    cases behind
  · rw [parseLoop_option filename props within dash, parseOption, known]
    dsimp only
    rw [if_pos last, usageExit_eq named]
    rfl

/-- An option with its value takes the loop to the arguments behind them. -/
theorem classified_option {argindex : Nat} {flag : Flag} (filename : Bytes) (props : Properties)
    (within : argindex < argv.length) (known : Flag.of? argv[argindex].val = some flag)
    (last : argindex + 1 < argv.length)
    (opened : flag = .P → (files argv[argindex + 1]).isSome)
    (rest : Classified files argv (argindex + 1 + 1)
      (lastFile filename [(flag, argv[argindex + 1])])
      (setOption files props (flag, argv[argindex + 1]))) :
    Classified files argv argindex filename props := by
  have arguments : argv.drop argindex =
      argv[argindex] :: argv[argindex + 1] :: argv.drop (argindex + 1 + 1) := by
    rw [List.drop_eq_getElem_cons within, List.drop_eq_getElem_cons last]
  have goes := parseLoop_goes_on filename props within known last opened
  rw [Classified, arguments]
  rcases rest with ⟨options, parsed, applied⟩ | ⟨other, refused⟩
  · refine .inl ⟨(flag, argv[argindex + 1]) :: options, ?_, ?_⟩
    · exact .cons flag ((Flag.of?_eq_some_iff _ flag).mp known) parsed
    · rw [goes, applied, lastFile_cons filename (flag, argv[argindex + 1]) options]
      rfl
  · refine .inr ⟨?_, ?_⟩
    · intro options parsed
      obtain ⟨_, _, _, later, _, same, _, behind⟩ := parsed.head
      rw [List.cons.injEq] at same
      exact other later (same.2 ▸ behind)
    · rw [Refused, goes]
      exact refused

theorem parseLoop_classified (named : argv ≠ []) (argindex : Nat)
    (opens : FilesOpen files (argv.drop argindex)) (within : argindex ≤ argv.length)
    (filename : Bytes) (props : Properties) :
    Classified files argv argindex filename props := by
  -- Every round takes two arguments, so the induction is on how many are left.
  induction left : argv.length - argindex using Nat.strong_induction_on
    generalizing argindex filename props with
  | _ left ih =>
    rcases within.lt_or_eq with more | done
    · cases known : Flag.of? argv[argindex].val with
      | none => exact classified_unknown filename props more known
      | some flag =>
        rcases Nat.lt_or_ge (argindex + 1) argv.length with last | short
        · rw [List.drop_eq_getElem_cons more, List.drop_eq_getElem_cons last] at opens
          refine classified_option filename props more known last ?_
            (ih _ (by omega) (argindex + 1 + 1) opens.2 (by omega) _ _ rfl)
          intro file
          exact opens.1 (file ▸ (Flag.of?_eq_some_iff _ flag).mp known)
        · exact classified_valueless named filename props more known short
    · rw [done]
      exact classified_end filename props

/-- The test behind the loop. -/
theorem parseCommandLine_of_loop {argindex : Nat} {filename : Bytes} {props after : Properties}
    (loop : parseLoop files argv 1 [] props = .ok (argindex, filename, after)) :
    parseCommandLine files argv props =
      if argindex = 1 ∨ argindex ≠ argv.length then usageExit argv else .ok (filename, after) := by
  rw [parseCommandLine, loop]
  rfl

/-- Without a command name the usage message has nothing to start with. -/
theorem parse_nothing (files : CStr → Option Bytes) (props : Properties) :
    parseCommandLine files [] props = .error (.outside 0) := by
  have loop : parseLoop files [] 1 [] props = .ok (1, [], props) :=
    parseLoop_stop [] props (fun within => absurd within (by decide))
  rw [parseCommandLine_of_loop loop]
  rfl

/-- The usage message, the message for an unknown option, or, with no arguments at
all, an access to `argv[0]` for the usage message. -/
def Message (argv : List CStr) (stop : Stop) : Prop :=
  stop = .usage ∨ (∃ option, stop = .unknownOption option) ∨ argv = [] ∧ stop = .outside 0

/-- Behind the command name, the options decide how `ParseCommandLine` ends. -/
theorem parse_classified (opens : FilesOpen files argv.tail) (props : Properties) :
    (∃ options, options ≠ [] ∧ Options argv.tail options ∧ parseCommandLine files argv props =
      .ok (lastFile [] options, override files props options)) ∨
    (∀ options, Options argv.tail options → options = []) ∧
      ∃ stop, parseCommandLine files argv props = .error stop ∧ Message argv stop := by
  by_cases named : argv = []
  · subst named
    refine .inr ⟨?_, _, parse_nothing files props, .inr (.inr ⟨rfl, rfl⟩)⟩
    intro options parsed
    cases parsed
    rfl
  have positive := List.length_pos_iff.mpr named
  rw [← List.drop_one] at opens
  have loop := parseLoop_classified named 1 opens positive [] props
  rw [Classified, List.drop_one] at loop
  rcases loop with ⟨options, parsed, applied⟩ | ⟨other, refused⟩
  · have length := parsed.length
    rw [List.length_tail] at length
    have ended := parseCommandLine_of_loop applied
    cases options with
    | nil =>
      rw [List.length_nil] at length
      rw [if_pos (.inl (by omega)), usageExit_eq named] at ended
      exact .inr ⟨fun options again => parsed.unique again ▸ rfl, .usage, ended, .inl rfl⟩
    | cons option rest =>
      rw [List.length_cons] at length
      rw [if_neg (by simp; omega)] at ended
      exact .inl ⟨option :: rest, List.cons_ne_nil _ _, parsed, ended⟩
  · refine .inr ⟨fun options parsed => absurd parsed (other options), ?_⟩
    rcases refused with ⟨stopped, name, after, short, loop⟩ | usage | ⟨option, unknown⟩
    · refine ⟨.usage, ?_, .inl rfl⟩
      rw [parseCommandLine_of_loop loop, if_pos (.inr short.ne), usageExit_eq named]
    · refine ⟨.usage, ?_, .inl rfl⟩
      rw [parseCommandLine, usage]
      rfl
    · refine ⟨.unknownOption option, ?_, .inr (.inl ⟨option, rfl⟩)⟩
      rw [parseCommandLine, unknown]
      rfl

/-- `ParseCommandLine` accepts the non-empty sequences of options with values and
applies them in order. Everything else ends in a message, and no argument is read
that is not there unless there are none, not even a command name. -/
theorem parse_command_line (files : CStr → Option Bytes) (argv : List CStr) (props : Properties)
    (opens : FilesOpen files argv.tail) :
    ((∃ result, parseCommandLine files argv props = .ok result) ↔
      ∃ options, options ≠ [] ∧ Options argv.tail options) ∧
    (∀ options, options ≠ [] → Options argv.tail options → parseCommandLine files argv props =
      .ok (lastFile [] options, override files props options)) ∧
    (∀ stop, parseCommandLine files argv props = .error stop →
      stop = .usage ∨ (∃ option, stop = .unknownOption option) ∨
        argv = [] ∧ stop = .outside 0) := by
  rcases parse_classified opens props with ⟨options, nonempty, parsed, applied⟩ |
    ⟨empty, stop, stopped, message⟩
  · rw [applied]
    refine ⟨iff_of_true ⟨_, rfl⟩ ⟨options, nonempty, parsed⟩, ?_, ?_⟩
    · intro others _ again
      rw [parsed.unique again]
    · intro stop impossible
      cases impossible
  · rw [stopped]
    refine ⟨iff_of_false ?_ ?_, ?_, ?_⟩
    · intro returns
      obtain ⟨result, impossible⟩ := returns
      cases impossible
    · intro accepted
      obtain ⟨options, nonempty, parsed⟩ := accepted
      exact nonempty (empty options parsed)
    · intro options nonempty parsed
      exact absurd (empty options parsed) nonempty
    · intro other same
      cases same
      exact message

/-- `ycsbc -db -P -P -db`: the database is named `-P` and the file `-db`. -/
def dashValues : List CStr :=
  [cStr (ascii ['y', 'c', 's', 'b', 'c']), cStr Flag.db.text, cStr Flag.P.text, cStr Flag.P.text,
    cStr Flag.db.text]

/-- No file but `-db` can be opened. -/
def dashFile (name : CStr) : Option Bytes := if name.val = Flag.db.text then some [] else none

theorem parse_command_line_dashes :
    parseCommandLine dashFile dashValues ∅ = .ok (Flag.db.text,
      override dashFile ∅ [(.db, cStr Flag.P.text), (.P, cStr Flag.db.text)]) := by
  have opens : FilesOpen dashFile dashValues.tail := ⟨by decide, by decide, trivial⟩
  exact (parse_command_line dashFile dashValues ∅ opens).2.1 _ (List.cons_ne_nil _ _)
    (.cons .db rfl (.cons .P rfl .nil))

/-- With an `argc` of zero, `argv[0]` is not below it, and read for the usage message. -/
theorem nothing_reads_outside :
    ∃ index, ([] : List CStr).length ≤ index ∧
      parseCommandLine (fun _ => some []) [] ∅ = .error (.outside index) :=
  ⟨0, le_refl 0, parse_nothing _ _⟩

end YcsbCloud.Guarantees.CommandLine
