import Mathlib.Algebra.Order.BigOperators.Group.Finset
import Mathlib.Data.Int.Notation
import YcsbCloud.Library.Interleaving
import YcsbCloud.Source.HdrPhaser

/-!
# A flip outlasts the writers before it

The start epoch of a phase counts its entries and the end epoch its exits, each from the
phase's own start value, so that the sign of an epoch tells the phase. Between flips every
writer inside is of the current phase.
-/
namespace YcsbCloud.Guarantees.HdrPhaser
open Library.Interleaving Source.HdrPhaser

variable {ι : Type*} [DecidableEq ι] [Fintype ι]

/-- The phase of an epoch. -/
def isEven (epoch : Int64) : Bool := decide (0 ≤ epoch.toInt)

/-- The start value of a phase. -/
def base (even : Bool) : ℤ := if even then 0 else -2 ^ 63

def endEpoch (p : Phaser) (even : Bool) : Int64 := if even then p.evenEndEpoch else p.oddEndEpoch

/-- A writer of the phase. -/
def within (even : Bool) : Option Int64 → ℕ
  | none => 0
  | some criticalValue => if isEven criticalValue = even then 1 else 0

/-- All writers inside entered in the current phase. -/
def Current (p : Phaser) (inside : ι → Option Int64) : Prop :=
  ∀ i v, inside i = some v → isEven v = isEven p.startEpoch

/-- What the next operation of a flip relies on. -/
def Flipping (p : Phaser) (inside : ι → Option Int64) : Option Flip → Prop
  | none | some .getStart => Current p inside
  | some (.clearEnd nextPhaseIsEven) =>
    nextPhaseIsEven = !isEven p.startEpoch ∧ Current p inside
  | some (.resetStart nextPhaseIsEven initialStartValue) =>
    nextPhaseIsEven = !isEven p.startEpoch ∧ initialStartValue.toInt = base nextPhaseIsEven ∧
      endEpoch p nextPhaseIsEven = initialStartValue ∧ Current p inside
  | some (.getEnd nextPhaseIsEven startValueAtFlip) =>
    nextPhaseIsEven = isEven p.startEpoch ∧
      (endEpoch p !nextPhaseIsEven).toInt + ∑ i, within (!nextPhaseIsEven) (inside i) =
        startValueAtFlip.toInt

/-- The epochs account for the writers inside, while there were not too many entries. -/
structure Phased (p : Phaser) (inside : ι → Option Int64) (flip : Option Flip) (entries : ℕ) :
    Prop where
  started : p.startEpoch.toInt ≤ base (isEven p.startEpoch) + entries
  balance : (endEpoch p (isEven p.startEpoch)).toInt +
    ∑ i, within (isEven p.startEpoch) (inside i) = p.startEpoch.toInt
  flipping : Flipping p inside flip

theorem toInt_succ {epoch : Int64} (room : epoch.toInt < 2 ^ 63 - 1) :
    (epoch + 1).toInt = epoch.toInt + 1 := by
  have := epoch.le_toInt
  rw [Int64.toInt_add, show (1 : Int64).toInt = 1 from rfl]
  apply Int.bmod_eq_of_le
  all_goals omega

theorem isEven_of_nonneg {epoch : Int64} (nonneg : 0 ≤ epoch.toInt) : isEven epoch = true :=
  decide_eq_true nonneg

theorem isEven_of_neg {epoch : Int64} (negative : epoch.toInt < 0) : isEven epoch = false :=
  decide_eq_false (Int.not_le.mpr negative)

theorem isEven_base {epoch : Int64} {even : Bool} (start : epoch.toInt = base even) :
    isEven epoch = even := by
  cases even with
  | true => exact isEven_of_nonneg (start ▸ Int.le_refl 0)
  | false => exact isEven_of_neg (start ▸ by decide)

omit [DecidableEq ι] in
theorem phased_init :
    Phased Phaser.hdrWriterReaderPhaserInit (fun _ : ι => none) none 0 where
  started := by decide
  balance := by
    simp only [within, Finset.sum_const_zero]
    decide
  flipping := fun _ _ => nofun

omit [DecidableEq ι] in
/-- With few entries an entry stays in its phase. -/
theorem Phased.next_epoch {p : Phaser} {inside : ι → Option Int64} {flip : Option Flip}
    {entries : ℕ} (phased : Phased p inside flip entries) (few : entries + 1 < 2 ^ 63) :
    (p.startEpoch + 1).toInt = p.startEpoch.toInt + 1 ∧
      isEven (p.startEpoch + 1) = isEven p.startEpoch := by
  have started := phased.started
  by_cases even : 0 ≤ p.startEpoch.toInt
  · rw [isEven_of_nonneg even, base, if_pos rfl] at started
    have next : (p.startEpoch + 1).toInt = p.startEpoch.toInt + 1 := toInt_succ (by omega)
    rw [isEven_of_nonneg even, isEven_of_nonneg (by omega)]
    exact ⟨next, rfl⟩
  · rw [isEven_of_neg (Int.not_le.mp even), base, if_neg Bool.false_ne_true] at started
    have next : (p.startEpoch + 1).toInt = p.startEpoch.toInt + 1 := toInt_succ (by omega)
    rw [isEven_of_neg (Int.not_le.mp even), isEven_of_neg (by omega)]
    exact ⟨next, rfl⟩

theorem within_same {even : Bool} {v : Int64} (same : isEven v = even) : within even (some v) = 1 :=
  if_pos same

theorem within_other {even : Bool} {v : Int64} (same : isEven v = even) :
    within (!even) (some v) = 0 := by
  subst same
  exact if_neg fun other => Bool.not_ne_self _ other.symm

theorem Phased.enter {p : Phaser} {inside : ι → Option Int64} {flip : Option Flip} {entries : ℕ}
    (phased : Phased p inside flip entries) {i : ι} (here : inside i = none)
    (few : entries + 1 < 2 ^ 63) :
    Phased p.hdrPhaserWriterEnter.1 (Function.update inside i (some p.hdrPhaserWriterEnter.2)) flip
      (entries + 1) := by
  obtain ⟨next, same⟩ := phased.next_epoch few
  have started := phased.started
  have balance := phased.balance
  have flipping := phased.flipping
  have entered (even : Bool) := sum_update (within even) inside i (some (p.startEpoch + 1))
  rw [here] at entered
  dsimp only [Phaser.hdrPhaserWriterEnter]
  have current (held : Current p inside) : Current { p with startEpoch := p.startEpoch + 1 }
      (Function.update inside i (some (p.startEpoch + 1))) := by
    intro j v at_j
    dsimp only
    rw [same]
    by_cases mine : j = i
    · subst mine
      rw [Function.update_self] at at_j
      cases at_j
      exact same
    · rw [Function.update_of_ne mine] at at_j
      exact held j v at_j
  refine ⟨?_, ?_, ?_⟩
  · dsimp only
    rw [same, next]
    omega
  · have more := entered (isEven p.startEpoch)
    rw [within_same same, within] at more
    dsimp only [endEpoch] at balance ⊢
    rw [same, next]
    omega
  · cases flip with
    | none => exact current flipping
    | some flip =>
      cases flip with
      | getStart => exact current flipping
      | clearEnd even => exact ⟨flipping.1.trans (congrArg _ same.symm), current flipping.2⟩
      | resetStart even start =>
        obtain ⟨other, initial, cleared, held⟩ := flipping
        exact ⟨other.trans (congrArg _ same.symm), initial, cleared, current held⟩
      | getEnd even start =>
        obtain ⟨phase, waiting⟩ := flipping
        have more := entered !even
        rw [phase, within_other same, within] at more
        refine ⟨phase.trans same.symm, ?_⟩
        rw [phase] at waiting ⊢
        dsimp only [endEpoch] at waiting ⊢
        omega

theorem endEpoch_exit (p : Phaser) (v : Int64) (even : Bool) :
    endEpoch (p.hdrPhaserWriterExit v) even =
      if isEven v = even then endEpoch p even + 1 else endEpoch p even := by
  have negative : v < 0 ↔ isEven v = false := by
    rw [Int64.lt_iff_toInt_lt, Int64.toInt_zero, isEven, decide_eq_false_iff_not, Int.not_le]
  rw [Phaser.hdrPhaserWriterExit]
  cases phase : isEven v with
  | true =>
    have nonneg : ¬ v < 0 := fun below => Bool.false_ne_true ((negative.mp below).symm.trans phase)
    rw [if_neg nonneg]
    cases even <;> rfl
  | false =>
    rw [if_pos (negative.mpr phase)]
    cases even <;> rfl

theorem startEpoch_exit (p : Phaser) (v : Int64) :
    (p.hdrPhaserWriterExit v).startEpoch = p.startEpoch := by
  unfold Phaser.hdrPhaserWriterExit
  split <;> rfl

/-- An exit moves one from the writers of a phase to its end epoch. -/
theorem exit_balance {p : Phaser} {inside : ι → Option Int64} {i : ι} {v epoch : Int64}
    {even : Bool} (here : inside i = some v)
    (balance : (endEpoch p even).toInt + ∑ j, within even (inside j) = epoch.toInt) :
    (endEpoch (p.hdrPhaserWriterExit v) even).toInt +
      ∑ j, within even (Function.update inside i none j) = epoch.toInt := by
  have left := sum_update (within even) inside i none
  have bounded := epoch.toInt_lt
  rw [here, within, within] at left
  rw [endEpoch_exit]
  split
  next same =>
    rw [if_pos same] at left
    rw [toInt_succ (by omega)]
    omega
  next other =>
    rw [if_neg other] at left
    omega

/-- A writer leaves. -/
theorem Phased.exit {p : Phaser} {inside : ι → Option Int64} {flip : Option Flip} {entries : ℕ}
    (phased : Phased p inside flip entries) {i : ι} {v : Int64} (here : inside i = some v) :
    Phased (p.hdrPhaserWriterExit v) (Function.update inside i none) flip entries := by
  have start := startEpoch_exit p v
  have flipping := phased.flipping
  have current (held : Current p inside) :
      Current (p.hdrPhaserWriterExit v) (Function.update inside i none) := by
    intro j w at_j
    rw [start]
    by_cases mine : j = i
    · subst mine
      rw [Function.update_self] at at_j
      cases at_j
    · rw [Function.update_of_ne mine] at at_j
      exact held j w at_j
  refine ⟨?_, ?_, ?_⟩
  · rw [start]
    exact phased.started
  · rw [start]
    exact exit_balance here phased.balance
  · cases flip with
    | none => exact current flipping
    | some flip =>
      cases flip with
      | getStart => exact current flipping
      | clearEnd even =>
        refine ⟨?_, current flipping.2⟩
        rw [start]
        exact flipping.1
      | resetStart even initial =>
        obtain ⟨other, started, cleared, held⟩ := flipping
        refine ⟨?_, started, ?_, current held⟩
        · rw [start]
          exact other
        · rw [endEpoch_exit, if_neg]
          · exact cleared
          · rw [other, held i v here]
            exact fun same => Bool.not_ne_self _ same.symm
      | getEnd even flipped =>
        refine ⟨?_, exit_balance here flipping.2⟩
        rw [start]
        exact flipping.1

omit [DecidableEq ι] in
/-- A flip begins. -/
theorem Phased.begin {p : Phaser} {inside : ι → Option Int64} {entries : ℕ}
    (phased : Phased p inside none entries) : Phased p inside (some .getStart) entries :=
  ⟨phased.started, phased.balance, phased.flipping⟩

omit [DecidableEq ι] in
theorem Current.none_within {p : Phaser} {inside : ι → Option Int64} (current : Current p inside)
    {even : Bool} (other : even = !isEven p.startEpoch) : ∑ i, within even (inside i) = 0 := by
  apply Finset.sum_eq_zero
  intro i _
  cases here : inside i with
  | none => rfl
  | some v => rw [other, within_other (current i v here)]

/-- The end epoch that a flip waits for. -/
theorem endEpoch_other (p : Phaser) (even : Bool) :
    endEpoch p (!even) = if even then p.oddEndEpoch else p.evenEndEpoch := by
  cases even <;> rfl

theorem clearEnd_operate (p : Phaser) (even : Bool) :
    ∃ initial cleared, (Flip.clearEnd even).operate p = (cleared, some (.resetStart even initial)) ∧
      initial.toInt = base even ∧ cleared.startEpoch = p.startEpoch ∧
      endEpoch cleared even = initial ∧ endEpoch cleared (!even) = endEpoch p (!even) := by
  cases even with
  | true => exact ⟨_, _, rfl, rfl, rfl, rfl, rfl⟩
  | false => exact ⟨_, _, rfl, rfl, rfl, rfl, rfl⟩

theorem readerMutex_operate (p : Phaser) (flip : Flip) :
    (flip.operate p).1.readerMutex = p.readerMutex := by
  cases flip with
  | clearEnd even => cases even <;> rfl
  | getStart | resetStart even initial | getEnd even flipped => rfl

omit [DecidableEq ι] in
/-- An operation of a flip. -/
theorem Phased.operate {p : Phaser} {inside : ι → Option Int64} {flip : Flip} {entries : ℕ}
    (phased : Phased p inside (some flip) entries) :
    Phased (flip.operate p).1 inside (flip.operate p).2 entries := by
  have started := phased.started
  have balance := phased.balance
  have flipping := phased.flipping
  cases flip with
  | getStart =>
    refine ⟨started, balance, ?_, flipping⟩
    rw [isEven, ← decide_not]
    exact decide_eq_decide.mpr (Int64.lt_iff_toInt_lt.trans Int.not_le.symm)
  | clearEnd even =>
    obtain ⟨other, current⟩ := flipping
    obtain ⟨initial, cleared, operated, base, start, reset, kept⟩ := clearEnd_operate p even
    have phase : (!even) = isEven p.startEpoch := by rw [other, Bool.not_not]
    rw [operated]
    refine ⟨?_, ?_, ?_, base, reset, ?_⟩
    · rw [start]
      exact started
    · rw [start, ← phase, kept, phase]
      exact balance
    · rw [start]
      exact other
    · intro i v here
      rw [start]
      exact current i v here
  | resetStart even initial =>
    obtain ⟨other, base, cleared, current⟩ := flipping
    have phase : isEven initial = even := isEven_base base
    have before : isEven p.startEpoch = !even := by rw [other, Bool.not_not]
    dsimp only [Flip.operate]
    refine ⟨?_, ?_, phase.symm, ?_⟩
    · dsimp only
      rw [phase, base]
      omega
    · dsimp only
      rw [phase, current.none_within other]
      have : endEpoch { p with startEpoch := initial } even = initial := cleared
      rw [this]
      omega
    · rw [before] at balance
      exact balance
  | getEnd even flipped =>
    obtain ⟨phase, waiting⟩ := flipping
    dsimp only [Flip.operate]
    rw [← endEpoch_other]
    split
    next caught_up =>
      rw [caught_up] at waiting
      have left : ∑ i, within (!even) (inside i) = 0 := by omega
      refine ⟨started, balance, ?_⟩
      intro i v here
      have gone := Finset.sum_eq_zero_iff.mp left i (Finset.mem_univ i)
      rw [here, within, ite_eq_right_iff] at gone
      rw [← phase]
      exact Bool.not_eq_not.mp fun other => Nat.one_ne_zero (gone other)
    next behind => exact ⟨started, balance, phase, waiting⟩

/-- A writer that was inside when the phase was flipped, or that may be then. -/
def Behind (criticalValue : Int64) : Flip → Prop
  | .getStart | .clearEnd _ | .resetStart .. => True
  | .getEnd nextPhaseIsEven _ => isEven criticalValue = !nextPhaseIsEven

omit [DecidableEq ι] in
/-- A flip goes on while a writer behind it is inside. -/
theorem Phased.behind {p : Phaser} {inside : ι → Option Int64} {flip : Flip} {entries : ℕ}
    (phased : Phased p inside (some flip) entries) {i : ι} {v : Int64} (here : inside i = some v)
    (behind : Behind v flip) : ∃ next, (flip.operate p).2 = some next ∧ Behind v next := by
  have flipping := phased.flipping
  have after := phased.operate
  cases flip with
  | getStart => exact ⟨_, rfl, trivial⟩
  | clearEnd even =>
    obtain ⟨initial, cleared, operated, _⟩ := clearEnd_operate p even
    rw [operated]
    exact ⟨_, rfl, trivial⟩
  | resetStart even initial =>
    obtain ⟨other, _, _, current⟩ := flipping
    refine ⟨_, rfl, ?_⟩
    rw [Behind, current i v here, other, Bool.not_not]
  | getEnd even flipped =>
    dsimp only [Flip.operate] at after ⊢
    generalize (if even then p.oddEndEpoch else p.evenEndEpoch) = endEpoch at after ⊢
    split at after
    next caught_up =>
      have same := after.flipping i v here
      have phase := flipping.1
      rw [behind, phase] at same
      exact absurd same (Bool.not_ne_self _)
    next waiting =>
      rw [if_neg waiting]
      exact ⟨_, rfl, behind⟩

/-- The operations that a flip still has when its last one is enough. -/
def flipLeft : Option Flip → ℕ
  | none => 0
  | some .getStart => 4
  | some (.clearEnd _) => 3
  | some (.resetStart ..) => 2
  | some (.getEnd ..) => 1

omit [DecidableEq ι] in
/-- With no writer inside a flip does not wait. -/
theorem Phased.progress {p : Phaser} {inside : ι → Option Int64} {flip : Flip} {entries : ℕ}
    (phased : Phased p inside (some flip) entries) (left : ∀ i, inside i = none) :
    flipLeft (flip.operate p).2 < flipLeft (some flip) := by
  have flipping := phased.flipping
  cases flip with
  | getStart | resetStart even initial => exact Nat.lt_succ_self _
  | clearEnd even =>
    obtain ⟨initial, cleared, operated, _⟩ := clearEnd_operate p even
    rw [operated]
    exact Nat.lt_succ_self _
  | getEnd even flipped =>
    have reached := flipping.2
    have nobody : ∑ i, within (!even) (inside i) = 0 :=
      Finset.sum_eq_zero fun i _ => by rw [left i, within]
    rw [nobody, Int.natCast_zero, Int.add_zero, Int64.toInt_inj] at reached
    dsimp only [Flip.operate]
    rw [← endEpoch_other, if_pos reached]
    exact Nat.lt_succ_self _

end YcsbCloud.Guarantees.HdrPhaser
