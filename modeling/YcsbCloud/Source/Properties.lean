import Mathlib.Data.List.Basic
import YcsbCloud.Library.Delimited
import YcsbCloud.Source.Strings

/-!
# `core/properties.h`, and `Trim` of `core/utils.h`

A property file is the text left to read and the stream's `eofbit`. Reading it does
not fail otherwise, so `bad()` stays false. `isspace` is that of the C locale, on
ASCII characters.
-/
namespace YcsbCloud.Source
open Library

/-- `properties_`. -/
abbrev Properties := Std.ExtTreeMap Bytes Bytes compare

/-- `std::ifstream`. -/
structure Ifstream where
  isOpen : Bool
  rest : Bytes
  eof : Bool

/-- The newline that `std::getline` stops at. -/
def newline : UInt8 := 10

/-- `'='`. -/
def equals : UInt8 := 61

/-- `'#'`. -/
def numberSign : UInt8 := 35

/-- `std::isspace`: a blank, or one of `"\t\n\v\f\r"`. -/
def isspace (c : UInt8) : Bool := c == 32 || (9 ≤ c && c ≤ 13)

/-- `utils::Trim`. -/
def trim (str : Bytes) : Bytes := Delimited.trim isspace str

namespace Ifstream

/-- `std::getline`: the line, and the stream behind its newline. -/
def getline (input : Ifstream) : Bytes × Ifstream :=
  match input.rest.dropWhile (· != newline) with
  | [] => (input.rest, { input with rest := [], eof := true })
  | _ :: rest => (input.rest.takeWhile (· != newline), { input with rest := rest })

/-- What is left to do for a loop until `eof()`. -/
def remaining (input : Ifstream) : Nat := if input.eof then 0 else input.rest.length + 1

theorem getline_remaining (input : Ifstream) (more : input.eof = false) :
    input.getline.2.remaining < input.remaining := by
  have shorter := (List.dropWhile_suffix (l := input.rest) (· != newline)).length_le
  rw [remaining, remaining, more, getline]
  split
  next last => simp
  next c rest found =>
    rw [found, List.length_cons] at shorter
    simp [more]
    omega

end Ifstream

namespace Properties

/-- `SetProperty`. -/
def setProperty (p : Properties) (key value : Bytes) : Properties := p.insert key value

theorem getElem?_setProperty (p : Properties) (key value queried : Bytes) :
    (p.setProperty key value)[queried]? = if key = queried then some value else p[queried]? := by
  rw [setProperty, Std.ExtTreeMap.getElem?_insert]
  simp only [Std.LawfulEqCmp.compare_eq_iff_eq]

/-- The body of the loop of `Load` on a line; `line[0]` of an empty line is NUL. -/
def loadLine (p : Properties) (line : Bytes) : Properties :=
  if line.headD 0 = numberSign then p
  else
    match line.findIdx? (· == equals) with
    | none => p
    | some pos => p.setProperty (trim (line.take pos)) (trim (line.drop (pos + 1)))

/-- The loop of `Load`. -/
def loadLoop (input : Ifstream) (p : Properties) : Properties :=
  if _ : input.eof = false then
    loadLoop input.getline.2 (p.loadLine input.getline.1)
  else p
termination_by input.remaining
decreasing_by exact input.getline_remaining ‹_›

/-- `"File not open!"`. -/
inductive LoadError where
  | fileNotOpen
  deriving DecidableEq, Repr

/-- `Load`: what it returns, and the properties after. -/
def load (p : Properties) (input : Ifstream) : Except LoadError (Bool × Properties) :=
  if !input.isOpen then .error .fileNotOpen else .ok (true, loadLoop input p)

/-- The loop takes the file line by line, and what follows the last newline as one
more line. -/
theorem loadLoop_eq (isOpen : Bool) (text : Bytes) (p : Properties) :
    loadLoop ⟨isOpen, text, false⟩ p = (text.splitOn newline).foldl loadLine p := by
  induction length : text.length using Nat.strong_induction_on generalizing text p with
  | _ length ih =>
    have cut := List.takeWhile_append_dropWhile (p := (· != newline)) (l := text)
    rw [loadLoop, dif_pos rfl, Ifstream.getline]
    split
    next last =>
      rw [last, List.append_nil] at cut
      have single : newline ∉ text := by
        intro member
        rw [← cut] at member
        simpa using List.mem_takeWhile_imp member
      rw [List.splitOn_eq_singleton single, loadLoop, dif_neg (by simp)]
      rfl
    next c rest found =>
      have stops : c = newline := by
        have failed := List.head_dropWhile_not (· != newline) (l := text) (by rw [found]; simp)
        simpa [found] using failed
      have clean : newline ∉ text.takeWhile (· != newline) := by
        intro member
        simpa using List.mem_takeWhile_imp member
      rw [found, stops] at cut
      have shorter : rest.length < text.length := by
        rw [← cut, List.length_append, List.length_cons]
        omega
      rw [ih rest.length (by omega) rest _ rfl, ← cut,
        List.splitOn_append_cons_self_of_not_mem clean]
      simp only [cut]
      rfl

end Properties

end YcsbCloud.Source
