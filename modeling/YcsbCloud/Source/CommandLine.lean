import YcsbCloud.Library.Machine
import YcsbCloud.Source.Properties

/-!
# `ParseCommandLine` of `ycsbc.cc`

The arguments are the first `argc` entries of `argv`, and every access to `argv`
goes through `argument`, so that one elsewhere would show. The eleven options that
set a property differ in their text and their property only; `-P` loads a file.
-/
namespace YcsbCloud.Source.CommandLine
open Library

/-- The options that `ParseCommandLine` compares with, in its order. -/
inductive Flag where
  | threads | db | host | port | slaves | dbpath | load | run | dboption | dbstatistics
  | dbwaitforbalance | P
  deriving DecidableEq, Repr

namespace Flag

/-- What `strcmp` compares an argument with. -/
def text : Flag → Bytes
  | .threads => ascii ['-', 't', 'h', 'r', 'e', 'a', 'd', 's']
  | .db => ascii ['-', 'd', 'b']
  | .host => ascii ['-', 'h', 'o', 's', 't']
  | .port => ascii ['-', 'p', 'o', 'r', 't']
  | .slaves => ascii ['-', 's', 'l', 'a', 'v', 'e', 's']
  | .dbpath => ascii ['-', 'd', 'b', 'p', 'a', 't', 'h']
  | .load => ascii ['-', 'l', 'o', 'a', 'd']
  | .run => ascii ['-', 'r', 'u', 'n']
  | .dboption => ascii ['-', 'd', 'b', 'o', 'p', 't', 'i', 'o', 'n']
  | .dbstatistics => ascii ['-', 'd', 'b', 's', 't', 'a', 't', 'i', 's', 't', 'i', 'c', 's']
  | .dbwaitforbalance =>
    ascii ['-', 'd', 'b', 'w', 'a', 'i', 't', 'f', 'o', 'r', 'b', 'a', 'l', 'a', 'n', 'c', 'e']
  | .P => ascii ['-', 'P']

/-- The property of an option; `-P` has none. -/
def property : Flag → Option Bytes
  | .threads => some (ascii ['t', 'h', 'r', 'e', 'a', 'd', 'c', 'o', 'u', 'n', 't'])
  | .db => some (ascii ['d', 'b', 'n', 'a', 'm', 'e'])
  | .host => some (ascii ['h', 'o', 's', 't'])
  | .port => some (ascii ['p', 'o', 'r', 't'])
  | .slaves => some (ascii ['s', 'l', 'a', 'v', 'e', 's'])
  | .dbpath => some (ascii ['d', 'b', 'p', 'a', 't', 'h'])
  | .load => some (ascii ['l', 'o', 'a', 'd'])
  | .run => some (ascii ['r', 'u', 'n'])
  | .dboption => some (ascii ['d', 'b', 'o', 'p', 't', 'i', 'o', 'n'])
  | .dbstatistics =>
    some (ascii ['d', 'b', 's', 't', 'a', 't', 'i', 's', 't', 'i', 'c', 's'])
  | .dbwaitforbalance =>
    some (ascii ['d', 'b', 'w', 'a', 'i', 't', 'f', 'o', 'r', 'b', 'a', 'l', 'a', 'n', 'c', 'e'])
  | .P => none

/-- The order of the comparisons. -/
def all : List Flag :=
  [.threads, .db, .host, .port, .slaves, .dbpath, .load, .run, .dboption, .dbstatistics,
    .dbwaitforbalance, .P]

/-- The first comparison that succeeds. -/
def of? (str : Bytes) : Option Flag := all.find? fun flag => flag.text = str

theorem of?_eq_some_iff (str : Bytes) (flag : Flag) : of? str = some flag ↔ str = flag.text := by
  constructor
  · intro found
    have same := List.find?_some found
    exact (of_decide_eq_true same).symm
  · intro same
    subst str
    cases flag <;> decide

end Flag

/-- How `ParseCommandLine` ends other than by returning: an access outside of the
arguments, an exit after the usage message or after naming an unknown option, or
the exception of `Load`, which its `catch` clause does not match. -/
inductive Stop where
  | outside (index : Nat)
  | usage
  | unknownOption (option : CStr)
  | fileNotOpen
  deriving DecidableEq

/-- `argv[index]`. -/
def argument (argv : List CStr) (index : Nat) : Except Stop CStr :=
  match argv[index]? with
  | some str => .ok str
  | none => .error (.outside index)

/-- `UsageMessage(argv[0])` and `exit(0)`. -/
def usageExit {α : Type} (argv : List CStr) : Except Stop α := do
  let _command ← argument argv 0
  throw .usage

/-- `StrStartWith`. -/
def strStartWith (str pre : Bytes) : Bool := pre.isPrefixOf str

/-- `ifstream input(name)`, over what the files hold that can be opened. -/
def openFile (files : CStr → Option Bytes) (name : CStr) : Ifstream :=
  match files name with
  | some text => ⟨true, text, false⟩
  | none => ⟨false, [], false⟩

/-- What the branch of an option does with its value. -/
def applyOption (files : CStr → Option Bytes) (flag : Flag) (value : CStr) (filename : Bytes)
    (props : Properties) : Except Stop (Bytes × Properties) :=
  match flag.property with
  | some property => .ok (filename, props.setProperty property value.val)
  | none =>
    match props.load (openFile files value) with
    | .ok (_, props) => .ok (value.val, props)
    | .error .fileNotOpen => .error .fileNotOpen

/-- The body of the loop, up to the index that it goes on with. -/
def parseOption (files : CStr → Option Bytes) (argv : List CStr) (argindex : Nat) (option : CStr)
    (filename : Bytes) (props : Properties) : Except Stop (Bytes × Properties) :=
  match Flag.of? option.val with
  | none => .error (.unknownOption option)
  | some flag =>
    if argindex + 1 ≥ argv.length then usageExit argv
    else do
      let value ← argument argv (argindex + 1)
      applyOption files flag value filename props

/-- The loop of `ParseCommandLine`: where it leaves off, and the locals. -/
def parseLoop (files : CStr → Option Bytes) (argv : List CStr) (argindex : Nat) (filename : Bytes)
    (props : Properties) : Except Stop (Nat × Bytes × Properties) :=
  if _ : argindex < argv.length then do
    let option ← argument argv argindex
    if strStartWith option.val (ascii ['-']) then do
      let parsed ← parseOption files argv argindex option filename props
      parseLoop files argv (argindex + 1 + 1) parsed.1 parsed.2
    else .ok (argindex, filename, props)
  else .ok (argindex, filename, props)
termination_by argv.length - argindex

/-- `ParseCommandLine`: the name of the last file, and the properties after. -/
def parseCommandLine (files : CStr → Option Bytes) (argv : List CStr) (props : Properties) :
    Except Stop (Bytes × Properties) := do
  let (argindex, filename, props) ← parseLoop files argv 1 [] props
  if argindex = 1 ∨ argindex ≠ argv.length then usageExit argv
  else return (filename, props)

end YcsbCloud.Source.CommandLine
