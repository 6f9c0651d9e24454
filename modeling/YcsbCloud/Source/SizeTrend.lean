import Mathlib.Algebra.Order.Field.Rat
import Mathlib.Data.Fin.Basic
import Mathlib.Logic.Function.Basic

/-!
# The log parser of `parse_size_trend`

`parse_log_file` of `parse.py` collects the sizes of the levels L0 to L4 from the
compaction status that RocksDB prints every ten seconds. A level is its number. A line
that is neither a level's nor the sum changes nothing and is left out. Sizes are exact:
a division by 1024 only changes the exponent of a float.
-/
namespace YcsbCloud.Source.SizeTrend

/-- For the numerals of levels. -/
scoped instance neZeroLevels : NeZero 5 := ⟨by decide⟩

inductive SizeUnit where
  | GB
  | MB
  deriving DecidableEq, Repr

/-- What the regular expression matches in the line of a level. -/
structure LevelLine where
  level : Fin 5
  size : ℚ
  unit : SizeUnit
  deriving DecidableEq, Repr

inductive LogLine where
  | level (line : LevelLine)
  | sum
  deriving DecidableEq, Repr

/-- The size of a level, in GB. -/
def LevelLine.gb (line : LevelLine) : ℚ :=
  match line.unit with
  | .MB => line.size / 1024
  | .GB => line.size

abbrev Levels := Fin 5 → List ℚ

def Levels.append (levels : Levels) (level : Fin 5) (size : ℚ) : Levels :=
  Function.update levels level (levels level ++ [size])

/-- The locals of `parse_log_file`. -/
structure Parser where
  levels : Levels
  timestamps : List Nat
  timestamp : Nat
  lastLevel : Option (Fin 5)

def start : Parser := ⟨fun _ => [], [], 0, none⟩

theorem fill_closer {expected level : Fin 5} (missing : expected ≠ level) :
    level - (expected + 1) < level - expected := by
  revert expected level
  decide

/-- `while expected_level != level`. -/
def fillMissing (expected level : Fin 5) (levels : Levels) : Levels :=
  if expected = level then levels
  else fillMissing (expected + 1) level (levels.append expected 0)
  termination_by level - expected
  decreasing_by exact fill_closer ‹_›

def Parser.levelLine (s : Parser) (line : LevelLine) : Parser :=
  let levels :=
    match s.lastLevel with
    | none => s.levels
    | some last => fillMissing (last + 1) line.level s.levels
  { s with levels := levels.append line.level line.gb, lastLevel := some line.level }

def Parser.sumLine (s : Parser) : Parser :=
  { s with timestamps := s.timestamps ++ [s.timestamp], timestamp := s.timestamp + 10 }

def Parser.line (s : Parser) : LogLine → Parser
  | .level line => s.levelLine line
  | .sum => s.sumLine

def parseLogFile (file : List LogLine) : Levels × List Nat :=
  let s := file.foldl Parser.line start
  (s.levels, s.timestamps)

theorem append_apply (levels : Levels) (level other : Fin 5) (size : ℚ) :
    levels.append level size other = levels other ++ if other = level then [size] else [] := by
  rw [Levels.append, Function.update_apply]
  split
  next same => rw [same]
  next => rw [List.append_nil]

theorem expected_not_after (expected level : Fin 5) :
    ¬ expected - (expected + 1) < level - (expected + 1) := by
  revert expected level
  decide

/-- What is ahead of the next level, other than the level itself. -/
theorem ahead_succ (expected level other : Fin 5) (elsewhere : other ≠ expected)
    (missing : expected ≠ level) :
    other - (expected + 1) < level - (expected + 1) ↔ other - expected < level - expected := by
  revert expected level other
  decide

theorem expected_ahead {expected level : Fin 5} (missing : expected ≠ level) :
    expected - expected < level - expected := by
  revert expected level
  decide

/-- Filling goes round from the expected level and stops at the one that is there. -/
theorem fillMissing_apply (expected level other : Fin 5) (levels : Levels) :
    fillMissing expected level levels other =
      levels other ++ if other - expected < level - expected then [0] else [] := by
  induction expected, levels using fillMissing.induct level with
  | case1 levels =>
    have reached : ¬ other - level < level - level := by
      revert other level
      decide
    rw [fillMissing, if_pos rfl, if_neg reached, List.append_nil]
  | case2 expected levels missing ih =>
    rw [fillMissing, if_neg missing, ih, append_apply, List.append_assoc]
    by_cases here : other = expected
    · rw [if_pos here, here, if_neg (expected_not_after expected level),
        if_pos (expected_ahead missing)]
      rfl
    · rw [if_neg here, List.nil_append,
        if_congr (ahead_succ expected level other here missing) rfl rfl]

end YcsbCloud.Source.SizeTrend
