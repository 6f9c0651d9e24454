import Mathlib.Data.Rat.Floor
import YcsbCloud.Library.Machine
import YcsbCloud.Source.Utils

/-!
# Generators of the benchmark core

A generator is its parameters together with what a raw random draw turns into.
Uniform draws are bounded by the distribution's range. A zipfian rank comes out
of floating-point arithmetic, and which ranks can occur is a parameter here; the
integer arithmetic around it (scrambling, subtraction from the newest key, the
assertions) is the source's.
-/
namespace YcsbCloud.Source

/-- A 32-bit `int`: what `std::stoi` returns when it does not throw. -/
abbrev CInt := { x : Int // -2 ^ 31 ≤ x ∧ x < 2 ^ 31 }

theorem bmod_cInt (x : Int) : -2 ^ 31 ≤ x.bmod (2 ^ 32) ∧ x.bmod (2 ^ 32) < 2 ^ 31 :=
  ⟨Int.le_bmod (by decide), Int.bmod_lt (by decide)⟩

/-- A literal, taken to the type's range as a conversion does. -/
instance (n : Nat) : OfNat CInt n := ⟨⟨(n : Int).bmod (2 ^ 32), bmod_cInt n⟩⟩

/-- Conversion of a signed value to `uint64_t` or `size_t`. -/
def toU64 (x : Int) : Nat := (x % 2 ^ 64).toNat

/-- `uint64_t` addition and subtraction. -/
def addU64 (a b : Nat) : Nat := (a + b) % 2 ^ 64
def subU64 (a b : Nat) : Nat := (a + 2 ^ 64 - b % 2 ^ 64) % 2 ^ 64

theorem toU64_of_nonneg (x : Int) (lower : 0 ≤ x) (upper : x < 2 ^ 64) : toU64 x = x.toNat := by
  unfold toU64
  rw [Int.emod_eq_of_lt lower upper]

theorem toU64_lt (x : Int) : toU64 x < 2 ^ 64 := by
  unfold toU64
  omega

theorem subU64_of_le (a b : Nat) (ordered : b ≤ a) (bound : a < 2 ^ 64) : subU64 a b = a - b := by
  unfold subU64
  have small : b % 2 ^ 64 = b := Nat.mod_eq_of_lt (by omega)
  rw [small, show a + 2 ^ 64 - b = a - b + 2 ^ 64 by omega, Nat.add_mod_right]
  exact Nat.mod_eq_of_lt (by omega)

/-- A constructor's assertion that did not hold, a conversion to `int` that is
undefined, or an exception of `Init`. -/
inductive InitError where
  | zipfianNumItems (numItems : Nat)
  | newKeysOutOfRange
  | unknownFieldLengthDistribution
  | unknownRequestDistribution
  | scanLengthDistributionNotAllowed
  deriving DecidableEq, Repr

/-- `std::atomic<uint64_t> counter_`. -/
structure CounterGenerator where
  counter : Nat
  deriving DecidableEq, Repr

namespace CounterGenerator

/-- `counter_.fetch_add(1)`: the value before, and the counter after. -/
def next (g : CounterGenerator) : Nat × CounterGenerator := (g.counter, ⟨addU64 g.counter 1⟩)

def last (g : CounterGenerator) : Nat := subU64 g.counter 1

def set (_ : CounterGenerator) (start : Nat) : CounterGenerator := ⟨start⟩

end CounterGenerator

/-- Both ends are inclusive. -/
structure UniformGenerator where
  min : Nat
  max : Nat
  deriving DecidableEq, Repr

def UniformGenerator.canDraw (g : UniformGenerator) (n : Nat) : Prop := g.min ≤ n ∧ n ≤ g.max

instance (g : UniformGenerator) (n : Nat) : Decidable (g.canDraw n) :=
  inferInstanceAs (Decidable (_ ∧ _))

/-- `UINT64_MAX >> 24`. -/
def kMaxNumItems : Nat := 2 ^ 40 - 1

/-- The integer parameters of a zipfian generator; ranks are drawn below
`numItems` and shifted by `base`. -/
structure ZipfianGenerator where
  numItems : Nat
  base : Nat
  deriving DecidableEq, Repr

/-- The constructor over `[min, max]`, with its assertion. -/
def ZipfianGenerator.make (min max : Nat) : Except InitError ZipfianGenerator :=
  let numItems := addU64 (subU64 max min) 1
  if 2 ≤ numItems ∧ numItems < kMaxNumItems then .ok ⟨numItems, min⟩
  else .error (.zipfianNumItems numItems)

/-- Over a proper range the number of items is exact, and the assertion is all
that stands in the way. -/
theorem ZipfianGenerator.make_ok_iff (min max : Nat) (ordered : min ≤ max) (bound : max < 2 ^ 63)
    (generator : ZipfianGenerator) :
    ZipfianGenerator.make min max = .ok generator ↔
      generator = ⟨max - min + 1, min⟩ ∧ min < max ∧ max - min + 1 < kMaxNumItems := by
  have items : addU64 (subU64 max min) 1 = max - min + 1 := by
    rw [subU64_of_le _ _ ordered (by omega), addU64, Nat.mod_eq_of_lt (by omega)]
  simp only [ZipfianGenerator.make, items]
  split
  next accepted =>
    rw [Except.ok.injEq, eq_comm]
    exact ⟨fun same => ⟨same, by omega, accepted.2⟩, fun ⟨same, _⟩ => same⟩
  next refused =>
    constructor
    · intro impossible
      cases impossible
    · intro ⟨_, below, few⟩
      exact absurd ⟨by omega, few⟩ refused

/-- The constructor over a number of items. -/
def ZipfianGenerator.ofNumItems (numItems : Nat) : Except InitError ZipfianGenerator :=
  ZipfianGenerator.make 0 (subU64 numItems 1)

theorem ZipfianGenerator.ofNumItems_ok_iff (numItems : Nat) (bound : numItems < 2 ^ 63)
    (generator : ZipfianGenerator) :
    ZipfianGenerator.ofNumItems numItems = .ok generator ↔
      generator = ⟨numItems, 0⟩ ∧ 2 ≤ numItems ∧ numItems < kMaxNumItems := by
  unfold ZipfianGenerator.ofNumItems
  by_cases zero : numItems = 0
  · -- `0 - 1` wraps to the largest number, and one more is zero again.
    subst zero
    constructor
    · intro impossible
      cases impossible
    · intro ⟨_, few, _⟩
      omega
  · rw [subU64_of_le _ _ (by omega) (by omega),
      make_ok_iff _ _ (Nat.zero_le _) (by omega), Nat.sub_zero, Nat.sub_add_cancel (by omega)]
    exact and_congr_right fun _ => and_congr_left fun _ => by omega

structure ScrambledZipfianGenerator where
  base : Nat
  numItems : Nat
  generator : ZipfianGenerator
  deriving DecidableEq, Repr

def ScrambledZipfianGenerator.ofNumItems (numItems : Nat) :
    Except InitError ScrambledZipfianGenerator := do
  let max := subU64 numItems 1
  let generator ← ZipfianGenerator.make 0 max
  return ⟨0, addU64 (subU64 max 0) 1, generator⟩

theorem ScrambledZipfianGenerator.ofNumItems_ok_iff (numItems : Nat) (bound : numItems < 2 ^ 63)
    (generator : ScrambledZipfianGenerator) :
    ScrambledZipfianGenerator.ofNumItems numItems = .ok generator ↔
      generator = ⟨0, numItems, ⟨numItems, 0⟩⟩ ∧ 2 ≤ numItems ∧ numItems < kMaxNumItems := by
  have inner := ZipfianGenerator.ofNumItems_ok_iff numItems bound
  unfold ZipfianGenerator.ofNumItems at inner
  have items (positive : 2 ≤ numItems) :
      addU64 (subU64 (subU64 numItems 1) 0) 1 = numItems := by
    rw [subU64_of_le numItems 1 (by omega) (by omega), subU64_of_le _ 0 (Nat.zero_le _) (by omega),
      addU64, Nat.mod_eq_of_lt (by omega)]
    omega
  unfold ScrambledZipfianGenerator.ofNumItems
  rw [Library.Machine.bind_ok_iff]
  constructor
  · intro ⟨zipfian, built, returned⟩
    obtain ⟨rfl, range⟩ := (inner zipfian).mp built
    rw [items range.1] at returned
    exact ⟨(Except.ok.inj returned).symm, range⟩
  · intro ⟨same, range⟩
    refine ⟨_, (inner _).mpr ⟨rfl, range⟩, ?_⟩
    rw [items range.1, same]
    rfl

def ScrambledZipfianGenerator.scramble (g : ScrambledZipfianGenerator) (value : Nat) : Nat :=
  addU64 g.base (Utils.fnvHash64 value % g.numItems)

/-- The constructor reads the counter and draws once, `Next` asserting its own
bound on the number of items. -/
def SkewedLatestGenerator.make (counter : CounterGenerator) :
    Except InitError ZipfianGenerator := do
  let zipfian ← ZipfianGenerator.ofNumItems counter.last
  if 2 ≤ counter.last ∧ counter.last < kMaxNumItems then return zipfian
  else throw (.zipfianNumItems counter.last)

theorem SkewedLatestGenerator.make_ok_iff (counter : CounterGenerator)
    (bound : counter.last < 2 ^ 63) (zipfian : ZipfianGenerator) :
    SkewedLatestGenerator.make counter = .ok zipfian ↔
      zipfian = ⟨counter.last, 0⟩ ∧ 2 ≤ counter.last ∧ counter.last < kMaxNumItems := by
  unfold SkewedLatestGenerator.make
  rw [Library.Machine.bind_ok_iff]
  constructor
  · intro ⟨built, accepted, returned⟩
    obtain ⟨rfl, range⟩ := (ZipfianGenerator.ofNumItems_ok_iff _ bound built).mp accepted
    rw [if_pos range] at returned
    exact ⟨(Except.ok.inj returned).symm, range⟩
  · intro ⟨same, range⟩
    refine ⟨zipfian, (ZipfianGenerator.ofNumItems_ok_iff _ bound zipfian).mpr ⟨same, range⟩, ?_⟩
    rw [if_pos range]
    rfl

/-- `key_chooser_`. The latest chooser refers to the workload's counter. -/
inductive KeyChooser where
  | uniform (generator : UniformGenerator)
  | scrambledZipfian (generator : ScrambledZipfianGenerator)
  | skewedLatest (zipfian : ZipfianGenerator)
  deriving DecidableEq, Repr

/-- The ranks that a zipfian generator asked for so many items can return. -/
abbrev Ranks := Nat → Nat → Bool

/-- `Next` of the chooser on a raw draw: a number of the uniform range, or a
zipfian rank. `basis` is the counter that the latest chooser reads. A draw that
the distribution does not produce has no result, and neither has a failed
assertion. -/
def KeyChooser.next (ranks : Ranks) (basis : CounterGenerator) (draw : Nat) :
    KeyChooser → Option Nat
  | .uniform generator => if generator.canDraw draw then some draw else none
  | .scrambledZipfian generator =>
    if ranks generator.generator.numItems draw then some (generator.scramble draw) else none
  | .skewedLatest _ =>
    if 2 ≤ basis.last ∧ basis.last < kMaxNumItems ∧ ranks basis.last draw then
      some (subU64 basis.last draw)
    else none

def KeyChooser.canDraw (ranks : Ranks) (basis : CounterGenerator) (chooser : KeyChooser)
    (keyNum : Nat) : Prop := ∃ draw, chooser.next ranks basis draw = some keyNum

theorem KeyChooser.canDraw_uniform (ranks : Ranks) (basis : CounterGenerator)
    (generator : UniformGenerator) (keyNum : Nat) :
    (KeyChooser.uniform generator).canDraw ranks basis keyNum ↔ generator.canDraw keyNum := by
  simp only [KeyChooser.canDraw, KeyChooser.next, Option.ite_none_right_eq_some, Option.some.injEq]
  exact ⟨fun ⟨_, inRange, same⟩ => same ▸ inRange, fun inRange => ⟨keyNum, inRange, rfl⟩⟩

/-- `field_len_generator_`. -/
inductive FieldLenGenerator where
  | const (constant : Nat)
  | uniform (generator : UniformGenerator)
  | zipfian (generator : ZipfianGenerator)
  deriving DecidableEq, Repr

/-- `scan_len_chooser_`. -/
inductive ScanLenChooser where
  | uniform (generator : UniformGenerator)
  | zipfian (generator : ZipfianGenerator)
  deriving DecidableEq, Repr

theorem last_of_pos (g : CounterGenerator) (positive : 1 ≤ g.counter) (bound : g.counter < 2 ^ 64) :
    g.last = g.counter - 1 := subU64_of_le _ _ positive bound

/-- The log of the numbers a counter returned since it stood at `start`. -/
structure CounterGenerator.Logged (start : Nat) (g : CounterGenerator) (log : List Nat) : Prop where
  numbers : log = (List.range log.length).map fun j => (start + j) % 2 ^ 64
  counter : g.counter = (start + log.length) % 2 ^ 64

theorem CounterGenerator.logged_nil (g : CounterGenerator) (bound : g.counter < 2 ^ 64) :
    g.Logged g.counter [] := ⟨rfl, (Nat.mod_eq_of_lt bound).symm⟩

theorem CounterGenerator.Logged.next {start : Nat} {g : CounterGenerator} {log : List Nat}
    (logged : g.Logged start log) : g.next.2.Logged start (log ++ [g.next.1]) := by
  have length : (log ++ [g.next.1]).length = log.length + 1 := by simp
  constructor
  · rw [length, List.range_succ, List.map_append, ← logged.numbers, List.map_singleton,
      ← logged.counter]
    rfl
  · rw [length]
    simp only [CounterGenerator.next, addU64, logged.counter, Nat.mod_add_mod, Nat.add_assoc]

/-- Before the counter wraps, the numbers are consecutive. -/
theorem CounterGenerator.Logged.consecutive {start : Nat} {g : CounterGenerator} {log : List Nat}
    (logged : g.Logged start log) (bound : start + log.length ≤ 2 ^ 64) :
    log = (List.range log.length).map (start + ·) := by
  refine logged.numbers.trans (List.map_congr_left ?_)
  intro j member
  exact Nat.mod_eq_of_lt (by have := List.mem_range.mp member; omega)

theorem CounterGenerator.Logged.mem {start : Nat} {g : CounterGenerator} {log : List Nat}
    (logged : g.Logged start log) (number : Nat) :
    number ∈ log ↔ ∃ j < log.length, (start + j) % 2 ^ 64 = number := by
  rw [logged.numbers]
  simp only [List.mem_map, List.mem_range, List.length_map, List.length_range]

end YcsbCloud.Source
