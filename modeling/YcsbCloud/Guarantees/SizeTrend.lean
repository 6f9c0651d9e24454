import Mathlib.Data.List.Chain
import Mathlib.Order.Fin.Basic
import YcsbCloud.Library.Machine
import YcsbCloud.Source.SizeTrend

/-!
# Alignment of the size series

The parser fills in the levels that a dump leaves out when it comes to the next line of
a level, and knows the end of a dump only by a level that does not come after the last
one. It sees every boundary, and leaves nothing open at the end, if the first dump
starts with L0, the last one ends with L4, and no dump starts above the end of the one
before.
-/
namespace YcsbCloud.Guarantees.SizeTrend
open Source.SizeTrend Library.Machine

/-- The levels that one status of RocksDB lists, in their order. -/
structure Dump where
  lines : List LevelLine
  ordered : lines.Pairwise fun before after => before.level < after.level

/-- The size of a level among lines, 0 if it is not there. -/
def sizeOf (lines : List LevelLine) (level : Fin 5) : ℚ :=
  match lines.find? fun line => line.level = level with
  | some line => line.gb
  | none => 0

def Dump.log (d : Dump) : List LogLine := d.lines.map .level ++ [.sum]

/-- Every level has one size for each dump, and there are as many timestamps. -/
def Aligned (dumps : List Dump) : Prop :=
  let (levels, timestamps) := parseLogFile (dumps.flatMap Dump.log)
  timestamps.length = dumps.length ∧
    ∀ level, levels level = dumps.map fun d => sizeOf d.lines level

def parseDump (s : Parser) (d : Dump) : Parser :=
  (d.lines.foldl Parser.levelLine s).sumLine

theorem parse_dumps (s : Parser) (dumps : List Dump) :
    (dumps.flatMap Dump.log).foldl Parser.line s = dumps.foldl parseDump s := by
  induction dumps generalizing s with
  | nil => rfl
  | cons d rest ih =>
    rw [List.flatMap_cons, List.foldl_append, ih, List.foldl_cons, Dump.log, List.foldl_append,
      List.foldl_map]
    rfl

/-- What the next dump adds to the series of a level that comes after the last line. -/
def owed (lastLevel : Option (Fin 5)) (level : Fin 5) : List ℚ :=
  match lastLevel with
  | none => []
  | some last => if last < level then [0] else []

@[simp] theorem owed_none (level : Fin 5) : owed none level = [] := rfl

@[simp] theorem owed_some (last level : Fin 5) :
    owed (some last) level = if last < level then [0] else [] := rfl

/-- The series of a level, once the levels after the last line are filled in. -/
def filled (s : Parser) (level : Fin 5) : List ℚ := s.levels level ++ owed s.lastLevel level

/-- Before a line on a higher level, the levels between the two are filled in. -/
theorem ahead_above (last level other : Fin 5) (above : last < level) :
    other - (last + 1) < level - (last + 1) ↔ last < other ∧ other < level := by
  revert last level other
  decide

/-- Before a line on no higher level, the fill goes round by L0. -/
theorem ahead_round (last level other : Fin 5) (round : level ≤ last) :
    other - (last + 1) < level - (last + 1) ↔ last < other ∨ other < level := by
  revert last level other
  decide

theorem levelLine_above {s : Parser} {last : Fin 5} {line : LevelLine}
    (here : s.lastLevel = some last) (above : last < line.level) (level : Fin 5) :
    (s.levelLine line).levels level = s.levels level ++
      if level < line.level then owed s.lastLevel level
      else if level = line.level then [line.gb] else [] := by
  rw [Parser.levelLine, here]
  dsimp only
  rw [append_apply, fillMissing_apply, if_congr (ahead_above last line.level level above) rfl rfl,
    owed_some]
  grind

theorem levelLine_round {s : Parser} {line : LevelLine}
    (round : line.level ≤ s.lastLevel.getD 0) (level : Fin 5) :
    (s.levelLine line).levels level = filled s level ++
      if level < line.level then [0] else if level = line.level then [line.gb] else [] := by
  rw [Parser.levelLine, filled]
  cases here : s.lastLevel with
  | none =>
    have lowest : line.level = 0 := by
      rw [here] at round
      exact Fin.le_zero_iff.mp round
    dsimp only
    rw [append_apply, owed_none]
    grind
  | some last =>
    rw [here] at round
    dsimp only
    rw [append_apply, fillMissing_apply, if_congr (ahead_round last line.level level round) rfl rfl,
      owed_some]
    grind

theorem sizeOf_cons (line : LevelLine) (lines : List LevelLine) (level : Fin 5) :
    sizeOf (line :: lines) level = if line.level = level then line.gb else sizeOf lines level := by
  unfold sizeOf
  rw [List.find?_cons]
  by_cases same : line.level = level <;> simp [same]

theorem sizeOf_absent {lines : List LevelLine} {level : Fin 5}
    (absent : ∀ line ∈ lines, line.level ≠ level) : sizeOf lines level = 0 := by
  have missing : lines.find? (fun line => line.level = level) = none := by
    rw [List.find?_eq_none]
    intro line member same
    exact absent line member (of_decide_eq_true same)
  rw [sizeOf, missing]

/-- What a line and those after it add to a level above the last one. -/
theorem sizeOf_line {line : LevelLine} {rest : List LevelLine}
    (after : ∀ other ∈ rest, line.level < other.level) (level : Fin 5) :
    ((if level < line.level then [0] else if level = line.level then [line.gb] else []) ++
      if line.level < level then [sizeOf rest level] else []) = [sizeOf (line :: rest) level] := by
  rw [sizeOf_cons]
  rcases lt_trichotomy level line.level with below | same | beyond
  · have absent : sizeOf rest level = 0 :=
      sizeOf_absent fun other member => (below.trans (after other member)).ne'
    rw [if_pos below, if_neg below.asymm, if_neg below.ne', absent, List.append_nil]
  · subst same
    rw [if_neg (lt_irrefl _), if_pos rfl, if_neg (lt_irrefl _), if_pos rfl, List.append_nil]
  · rw [if_neg beyond.asymm, if_neg beyond.ne', if_pos beyond, if_neg beyond.ne, List.nil_append]

/-- Lines above the last level give one size to each level above it. -/
theorem lines_filled (lines : List LevelLine) (s : Parser) (last : Fin 5)
    (here : s.lastLevel = some last)
    (ordered : lines.Pairwise fun before after => before.level < after.level)
    (above : ∀ line ∈ lines, last < line.level) (level : Fin 5) :
    filled (lines.foldl Parser.levelLine s) level =
      s.levels level ++ if last < level then [sizeOf lines level] else [] := by
  induction lines generalizing s last with
  | nil =>
    rw [List.foldl_nil, filled, here, owed_some]
    rfl
  | cons line rest ih =>
    obtain ⟨after, restOrdered⟩ := List.pairwise_cons.mp ordered
    have next := above line List.mem_cons_self
    rw [List.foldl_cons, ih (s.levelLine line) line.level rfl restOrdered after,
      levelLine_above here next, here, owed_some, List.append_assoc]
    by_cases unpassed : last < level
    · rw [if_pos unpassed, if_pos unpassed, sizeOf_line after]
    · have passed : level < line.level := (not_lt.mp unpassed).trans_lt next
      rw [if_neg unpassed, if_neg unpassed, if_pos passed, if_neg passed.asymm]
      rfl

theorem lines_lastLevel (lines : List LevelLine) (s : Parser) :
    (lines.foldl Parser.levelLine s).lastLevel =
      (lines.getLast?.map LevelLine.level).or s.lastLevel := by
  induction lines generalizing s with
  | nil => rfl
  | cons line rest ih =>
    rw [List.foldl_cons, ih, List.getLast?_cons]
    cases rest.getLast? <;> rfl

/-- The dump has a first line, whose level is no higher than the given one. -/
def Dump.StartsBy (d : Dump) (level : Fin 5) : Prop :=
  ∃ line ∈ d.lines.head?, line.level ≤ level

def Dump.lastLevel (d : Dump) : Option (Fin 5) := d.lines.getLast?.map LevelLine.level

theorem Dump.StartsBy.lastLevel {d : Dump} {level : Fin 5} (starts : d.StartsBy level) :
    ∃ last, d.lastLevel = some last := by
  obtain ⟨line, first, _⟩ := starts
  have present : d.lines ≠ [] := fun empty => by simp [empty] at first
  exact ⟨_, congrArg _ (List.getLast?_eq_some_getLast present)⟩

theorem dump_lastLevel (s : Parser) (d : Dump) :
    (parseDump s d).lastLevel = d.lastLevel.or s.lastLevel :=
  lines_lastLevel d.lines s

theorem owed_zero (lastLevel : Option (Fin 5)) : owed lastLevel 0 = [] := by
  cases lastLevel with
  | none => rfl
  | some last => rw [owed_some, if_neg (Fin.not_lt_zero last)]

/-- A dump whose start shows adds its size to each level. -/
theorem dump_seen {s : Parser} {d : Dump} (seen : d.StartsBy (s.lastLevel.getD 0))
    (level : Fin 5) :
    filled (parseDump s d) level = filled s level ++ [sizeOf d.lines level] := by
  obtain ⟨lines, ordered⟩ := d
  obtain ⟨line, first, round⟩ := seen
  obtain ⟨rest, rfl⟩ : ∃ rest, lines = line :: rest := List.head?_eq_some_iff.mp first
  obtain ⟨after, restOrdered⟩ := List.pairwise_cons.mp ordered
  have others := lines_filled rest (s.levelLine line) line.level rfl restOrdered after level
  rw [levelLine_round round] at others
  change filled (rest.foldl Parser.levelLine (s.levelLine line)) level = _
  rw [others, List.append_assoc, sizeOf_line after]

/-- A dump whose start does not show adds nothing to L0. -/
theorem dump_missed {s : Parser} {d : Dump} (missed : ¬ d.StartsBy (s.lastLevel.getD 0)) :
    filled (parseDump s d) 0 = filled s 0 := by
  obtain ⟨lines, ordered⟩ := d
  cases lines with
  | nil => rfl
  | cons line rest =>
    have above : s.lastLevel.getD 0 < line.level :=
      lt_of_not_ge fun round => missed ⟨line, rfl, round⟩
    obtain ⟨after, restOrdered⟩ := List.pairwise_cons.mp ordered
    change filled (rest.foldl Parser.levelLine (s.levelLine line)) 0 = _
    rw [lines_filled rest (s.levelLine line) line.level rfl restOrdered after,
      if_neg (Fin.not_lt_zero _), List.append_nil, filled, owed_zero, List.append_nil]
    have positive : 0 < line.level := lt_of_le_of_lt (Fin.zero_le _) above
    cases here : s.lastLevel with
    | none =>
      rw [Parser.levelLine, here]
      dsimp only
      rw [append_apply, if_neg positive.ne, List.append_nil]
    | some last =>
      rw [here] at above
      rw [levelLine_above here above, owed_zero, if_pos positive, List.append_nil]

/-- The start of the next dump shows. -/
def Seen (s : Parser) (d : Dump) : Prop := d.StartsBy (s.lastLevel.getD 0)

/-- The parser, dump by dump. -/
def dumpStep : Step Parser Dump Unit := fun s d => some (parseDump s d, ())

theorem dump_timestamps (s : Parser) (d : Dump) :
    (parseDump s d).timestamps.length = s.timestamps.length + 1 := by
  have unchanged (lines : List LevelLine) (s : Parser) :
      (lines.foldl Parser.levelLine s).timestamps = s.timestamps := by
    induction lines generalizing s with
    | nil => rfl
    | cons line rest ih => exact ih (s.levelLine line)
  rw [parseDump, Parser.sumLine, unchanged, List.length_append, List.length_singleton]

theorem timestamps_foldl (s : Parser) (dumps : List Dump) :
    (dumps.foldl parseDump s).timestamps.length = s.timestamps.length + dumps.length := by
  induction dumps generalizing s with
  | nil => rfl
  | cons d rest ih =>
    rw [List.foldl_cons, ih, dump_timestamps, List.length_cons]
    omega

theorem filled_foldl {s : Parser} {dumps : List Dump} (seen : Along dumpStep Seen s dumps)
    (level : Fin 5) :
    filled (dumps.foldl parseDump s) level =
      filled s level ++ dumps.map fun d => sizeOf d.lines level := by
  induction dumps generalizing s with
  | nil => exact (List.append_nil _).symm
  | cons d rest ih =>
    obtain ⟨first, later⟩ := (along_cons rfl rest).mp seen
    rw [List.foldl_cons, ih later, dump_seen first, List.append_assoc]
    rfl

/-- The number of sizes of L0 over the number of timestamps. -/
def lead (s : Parser) : Int := (filled s 0).length - s.timestamps.length

/-- The sizes of L0 fall behind the timestamps with every start that does not show. -/
theorem seen_iff (s : Parser) (dumps : List Dump) :
    (filled (dumps.foldl parseDump s) 0).length = (filled s 0).length + dumps.length ↔
      Along dumpStep Seen s dumps := by
  have kept (s : Parser) (d : Dump) (next : Parser) (b : Unit) (_ : True)
      (moved : dumpStep s d = some (next, b)) (seen : Seen s d) : lead next = lead s := by
    obtain ⟨rfl, _⟩ := Prod.mk.inj (Option.some.inj moved)
    rw [lead, lead, dump_seen seen, dump_timestamps, List.length_append, List.length_singleton]
    omega
  have lowered (s : Parser) (d : Dump) (next : Parser) (b : Unit) (_ : True)
      (moved : dumpStep s d = some (next, b)) (missed : ¬ Seen s d) : lead next < lead s := by
    obtain ⟨rfl, _⟩ := Prod.mk.inj (Option.some.inj moved)
    rw [lead, lead, dump_missed missed, dump_timestamps]
    omega
  have ran : run dumpStep s dumps = _ := run_total parseDump s dumps
  have balance := (level_along (fun _ => True) lead (fun _ _ _ _ _ _ => trivial) kept lowered
    trivial ran).2
  rw [← balance, lead, lead, timestamps_foldl]
  omega

/-- The start of each dump shows exactly if the first one shows and none starts above
the end of the one before. -/
theorem along_seen_iff (s : Parser) (dumps : List Dump) :
    Along dumpStep Seen s dumps ↔ (∀ d ∈ dumps.head?, d.StartsBy (s.lastLevel.getD 0)) ∧
      dumps.IsChain fun before after => ∃ level ∈ before.lastLevel, after.StartsBy level := by
  induction dumps generalizing s with
  | nil => simp [Along]
  | cons d rest ih =>
    have moved : dumpStep s d = some (parseDump s d, ()) := rfl
    rw [along_cons moved, ih, List.isChain_cons, List.head?_cons]
    simp only [Option.mem_some_iff, forall_eq']
    refine and_congr_right fun seen => ?_
    obtain ⟨last, ends⟩ := Dump.StartsBy.lastLevel seen
    rw [dump_lastLevel, ends]
    simp

/-- The first dump starts with L0, the last one ends with L4, and every other one starts
no higher than the one before ends. No dump is empty. -/
structure Closed (dumps : List Dump) : Prop where
  first : ∀ d ∈ dumps.head?, d.StartsBy 0
  next : dumps.IsChain fun before after => ∃ level ∈ before.lastLevel, after.StartsBy level
  last : ∀ d ∈ dumps.getLast?, d.lastLevel = some 4

theorem parseLogFile_dumps (dumps : List Dump) :
    parseLogFile (dumps.flatMap Dump.log) =
      ((dumps.foldl parseDump start).levels, (dumps.foldl parseDump start).timestamps) := by
  rw [parseLogFile, parse_dumps]

theorem lastLevel_foldl {s : Parser} {dumps : List Dump} {d : Dump} {level : Fin 5}
    (final : dumps.getLast? = some d) (ends : d.lastLevel = some level) :
    (dumps.foldl parseDump s).lastLevel = some level := by
  obtain ⟨earlier, rfl⟩ := List.getLast?_eq_some_iff.mp final
  rw [List.foldl_append, List.foldl_cons, List.foldl_nil, dump_lastLevel, ends]
  rfl

theorem closed_of_aligned {dumps : List Dump} (aligned : Aligned dumps) : Closed dumps := by
  rw [Aligned, parseLogFile_dumps] at aligned
  have series := aligned.2
  have complete : (filled (dumps.foldl parseDump start) 0).length =
      (filled start 0).length + dumps.length := by
    rw [filled, owed_zero, List.append_nil, series, List.length_map]
    exact (Nat.zero_add _).symm
  have seen := (seen_iff start dumps).mp complete
  obtain ⟨first, next⟩ := (along_seen_iff start dumps).mp seen
  refine ⟨first, next, ?_⟩
  intro d final
  obtain ⟨earlier, rfl⟩ := List.getLast?_eq_some_iff.mp final
  have lastSeen := ((along_append (run_total parseDump start earlier)).mp seen).2.1
  obtain ⟨level, ends⟩ := Dump.StartsBy.lastLevel lastSeen
  have nothingOwed : owed (some level) 4 = [] := by
    have all := filled_foldl seen 4
    rw [filled, series, lastLevel_foldl final ends] at all
    exact List.append_right_eq_self.mp all
  -- A last level below L4 would still owe a size to L4.
  have highest : ¬ level < 4 := by
    intro below
    rw [owed_some, if_pos below] at nothingOwed
    cases nothingOwed
  rw [ends, le_antisymm (Fin.le_last level) (not_lt.mp highest)]
  rfl

theorem aligned_of_closed {dumps : List Dump} (closed : Closed dumps) : Aligned dumps := by
  have seen := (along_seen_iff start dumps).mpr ⟨closed.first, closed.next⟩
  rw [Aligned, parseLogFile_dumps]
  refine ⟨(timestamps_foldl start dumps).trans (Nat.zero_add _), ?_⟩
  intro level
  have all := filled_foldl seen level
  have nothingOwed : owed (dumps.foldl parseDump start).lastLevel level = [] := by
    cases final : dumps.getLast? with
    | none =>
      rw [List.getLast?_eq_none_iff.mp final]
      rfl
    | some d =>
      have highest : ¬ 4 < level := (Fin.le_last level).not_gt
      rw [lastLevel_foldl final (closed.last d final), owed_some, if_neg highest]
  rw [filled, nothingOwed, List.append_nil] at all
  exact all

/-- The series are aligned exactly if the parser sees where each dump starts and ends. -/
theorem aligned_iff (dumps : List Dump) : Aligned dumps ↔ Closed dumps :=
  ⟨closed_of_aligned, aligned_of_closed⟩

/-- L0 alone, and then L1 alone, once L0 is compacted into it. -/
def lowLevels : List Dump :=
  [⟨[⟨0, 1, .GB⟩], List.pairwise_singleton ..⟩, ⟨[⟨1, 2, .GB⟩], List.pairwise_singleton ..⟩]

/-- The size of L1 in the second dump stands where that of the first one belongs. -/
theorem lowLevels_shifted :
    (parseLogFile (lowLevels.flatMap Dump.log)).1 1 = [2] ∧ ¬ Aligned lowLevels := by
  have shifted : (parseLogFile (lowLevels.flatMap Dump.log)).1 1 = [2] := by
    simp [lowLevels, Dump.log, parseLogFile, start, Parser.line, Parser.levelLine,
      Parser.sumLine, append_apply, fillMissing_apply, LevelLine.gb]
  refine ⟨shifted, ?_⟩
  intro aligned
  have series := congrArg List.length (shifted.symm.trans (aligned.2 1))
  rw [List.length_map] at series
  cases series

end YcsbCloud.Guarantees.SizeTrend
