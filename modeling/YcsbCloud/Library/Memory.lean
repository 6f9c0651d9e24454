import Mathlib.Data.List.Basic
import Mathlib.Logic.Function.Basic

/-!
# Addressed memory

A memory gives every address a cell. Cells of any type are loaded from and stored to
a run of addresses in increasing order.
-/
namespace YcsbCloud.Library.Memory

variable {β : Type*}

/-- The cells of so many addresses. -/
def load (memory : Nat → β) (address : Nat) : Nat → List β
  | 0 => []
  | count + 1 => memory address :: load memory (address + 1) count

/-- The memory after writes to one address after the other. -/
def store (memory : Nat → β) (address : Nat) : List β → Nat → β
  | [] => memory
  | cell :: rest => store (Function.update memory address cell) (address + 1) rest

@[simp] theorem load_length (memory : Nat → β) (address count : Nat) :
    (load memory address count).length = count := by
  induction count generalizing address with
  | zero => rfl
  | succ count ih => rw [load, List.length_cons, ih]

/-- A store changes nothing outside of its addresses. -/
theorem store_other (memory : Nat → β) (address other : Nat) (cells : List β)
    (outside : other < address ∨ address + cells.length ≤ other) :
    store memory address cells other = memory other := by
  induction cells generalizing memory address with
  | nil => rfl
  | cons cell rest ih =>
    rw [List.length_cons] at outside
    rw [store, ih _ _ (by omega), Function.update_of_ne (by omega)]

/-- Loading finds what was stored. -/
theorem load_store (memory : Nat → β) (address : Nat) (cells : List β) :
    load (store memory address cells) address cells.length = cells := by
  induction cells generalizing memory address with
  | nil => rfl
  | cons cell rest ih =>
    rw [List.length_cons, load, store, ih, store_other _ _ _ _ (.inl (Nat.lt_succ_self address)),
      Function.update_self]

/-- Storing what was loaded changes nothing. -/
theorem store_load (memory : Nat → β) (address count : Nat) :
    store memory address (load memory address count) = memory := by
  induction count generalizing address with
  | zero => rfl
  | succ count ih => rw [load, store, Function.update_eq_self, ih]

end YcsbCloud.Library.Memory
