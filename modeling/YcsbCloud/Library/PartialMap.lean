import Mathlib.Logic.Function.Basic
import Mathlib.Data.List.Nodup
import Mathlib.Data.List.Basic
import Mathlib.Data.List.TakeWhile

/-!
# Partial maps and left-to-right overwriting

Maps from keys to optional values, written by lists of pairs. `overwrite`
applies a list in order, so that the last pair of a name wins; on a list with
distinct names it is the pointwise update by the list's lookup. Two more ways to
apply a list keep what is there: one skips the names it finds present, the other
stops at the first of them.
-/
namespace YcsbCloud.Library.PartialMap

variable {κ ν : Type*}

theorem takeWhile_congr {α : Type*} {p q : α → Bool} {l : List α} (same : ∀ a ∈ l, p a = q a) :
    l.takeWhile p = l.takeWhile q := by
  induction l with
  | nil => rfl
  | cons a rest ih =>
    rw [List.forall_mem_cons] at same
    rw [List.takeWhile_cons, List.takeWhile_cons, same.1, ih same.2]

section overwrite

variable [DecidableEq κ]

/-- Apply the pairs from left to right. -/
def overwrite (m : κ → Option ν) : List (κ × ν) → κ → Option ν
  | [] => m
  | kv :: rest => overwrite (Function.update m kv.1 (some kv.2)) rest

@[simp] theorem overwrite_nil (m : κ → Option ν) : overwrite m [] = m := rfl

@[simp] theorem overwrite_cons (m : κ → Option ν) (kv : κ × ν) (rest : List (κ × ν)) :
    overwrite m (kv :: rest) = overwrite (Function.update m kv.1 (some kv.2)) rest := rfl

theorem overwrite_absent (m : κ → Option ν) (pairs : List (κ × ν)) (name : κ)
    (absent : name ∉ pairs.map Prod.fst) : overwrite m pairs name = m name := by
  induction pairs generalizing m with
  | nil => rfl
  | cons kv rest ih =>
    simp only [List.map_cons, List.mem_cons, not_or] at absent
    rw [overwrite_cons, ih _ absent.2, Function.update_of_ne absent.1]

/-- Apply the pairs whose names are absent when their turn comes. -/
def addMissing (m : κ → Option ν) : List (κ × ν) → κ → Option ν
  | [] => m
  | kv :: rest =>
    addMissing (if (m kv.1).isSome then m else Function.update m kv.1 (some kv.2)) rest

/-- Apply the pairs up to the first whose name is present; whether all were applied. -/
def addUntilPresent (m : κ → Option ν) : List (κ × ν) → Bool × (κ → Option ν)
  | [] => (true, m)
  | kv :: rest =>
    if (m kv.1).isSome then (false, m)
    else addUntilPresent (Function.update m kv.1 (some kv.2)) rest

/-- Distinct names leave each other's presence alone. -/
theorem update_other_names (m : κ → Option ν) (kv : κ × ν) (rest : List (κ × ν))
    (distinct : ((kv :: rest).map Prod.fst).Nodup) (other : κ × ν) (member : other ∈ rest) :
    Function.update m kv.1 (some kv.2) other.1 = m other.1 := by
  rw [List.map_cons, List.nodup_cons] at distinct
  apply Function.update_of_ne
  rintro same
  exact distinct.1 (List.mem_map.mpr ⟨other, member, same⟩)

theorem addMissing_of_absent (m : κ → Option ν) (pairs : List (κ × ν))
    (distinct : (pairs.map Prod.fst).Nodup) (absent : ∀ kv ∈ pairs, m kv.1 = none) :
    addMissing m pairs = overwrite m pairs := by
  induction pairs generalizing m with
  | nil => rfl
  | cons kv rest ih =>
    have others := update_other_names m kv rest distinct
    rw [List.forall_mem_cons] at absent
    rw [addMissing, absent.1, overwrite_cons]
    apply ih _ (List.nodup_cons.mp distinct).2
    intro other member
    rw [Option.isSome_none, if_neg Bool.false_ne_true, others other member]
    exact absent.2 other member

/-- On a list with distinct names, what is applied is the part before the first
present name, and that part overwrites nothing. -/
theorem addUntilPresent_of_distinct (m : κ → Option ν) (pairs : List (κ × ν))
    (distinct : (pairs.map Prod.fst).Nodup) :
    addUntilPresent m pairs = (pairs.all fun kv => (m kv.1).isNone,
      overwrite m (pairs.takeWhile fun kv => (m kv.1).isNone)) := by
  induction pairs generalizing m with
  | nil => rfl
  | cons kv rest ih =>
    have others := update_other_names m kv rest distinct
    rw [addUntilPresent]
    cases here : m kv.1 with
    | some old => simp [here]
    | none =>
      have same : ∀ other ∈ rest, (Function.update m kv.1 (some kv.2) other.1).isNone =
          (m other.1).isNone := fun other member => by rw [others other member]
      rw [Option.isSome_none, if_neg Bool.false_ne_true, ih _ (List.nodup_cons.mp distinct).2,
        List.all_cons, here, Option.isNone_none, Bool.true_and, List.takeWhile_cons, here,
        Option.isNone_none, if_pos rfl, overwrite_cons]
      have all_same : (rest.all fun other => (Function.update m kv.1 (some kv.2) other.1).isNone) =
          rest.all fun other => (m other.1).isNone := by
        rw [Bool.eq_iff_iff, List.all_eq_true, List.all_eq_true]
        exact forall₂_congr fun other member => by rw [same other member]
      rw [takeWhile_congr same, all_same]

theorem addUntilPresent_of_absent (m : κ → Option ν) (pairs : List (κ × ν))
    (distinct : (pairs.map Prod.fst).Nodup) (absent : ∀ kv ∈ pairs, m kv.1 = none) :
    addUntilPresent m pairs = (true, overwrite m pairs) := by
  have all : ∀ kv ∈ pairs, (m kv.1).isNone = true := fun kv member => by rw [absent kv member]; rfl
  rw [addUntilPresent_of_distinct m pairs distinct, List.all_eq_true.mpr all,
    List.takeWhile_eq_self_iff.mpr all]

/-- What is present stays. -/
theorem addUntilPresent_keeps (m : κ → Option ν) (pairs : List (κ × ν)) (name : κ)
    (present : (m name).isSome) : (addUntilPresent m pairs).2 name = m name := by
  induction pairs generalizing m with
  | nil => rfl
  | cons kv rest ih =>
    rw [addUntilPresent]
    split
    · rfl
    next absent =>
      have other : name ≠ kv.1 := by
        rintro rfl
        exact absent present
      have same : Function.update m kv.1 (some kv.2) name = m name := Function.update_of_ne other ..
      rw [ih _ (by rw [same]; exact present), same]

/-- All pairs are applied exactly when their names are distinct and absent. -/
theorem addUntilPresent_all_iff (m : κ → Option ν) (pairs : List (κ × ν)) :
    (addUntilPresent m pairs).1 = true ↔
      (pairs.map Prod.fst).Nodup ∧ ∀ kv ∈ pairs, m kv.1 = none := by
  induction pairs generalizing m with
  | nil => simp [addUntilPresent]
  | cons kv rest ih =>
    rw [addUntilPresent]
    cases here : m kv.1 with
    | some old => simp [here]
    | none =>
      rw [Option.isSome_none, if_neg Bool.false_ne_true, ih, List.forall_mem_cons, List.map_cons,
        List.nodup_cons]
      constructor
      · intro ⟨distinct, absent⟩
        have apart : ∀ other ∈ rest, other.1 ≠ kv.1 := by
          intro other member same
          have updated := absent other member
          rw [same, Function.update_self] at updated
          cases updated
        refine ⟨⟨?_, distinct⟩, here, ?_⟩
        · intro member
          obtain ⟨other, later, same⟩ := List.mem_map.mp member
          exact apart other later same
        · intro other member
          have updated := absent other member
          rwa [Function.update_of_ne (apart other member)] at updated
      · intro ⟨⟨new, distinct⟩, _, absent⟩
        refine ⟨distinct, ?_⟩
        intro other member
        rw [update_other_names m kv rest (List.nodup_cons.mpr ⟨new, distinct⟩) other member]
        exact absent other member

/-- Whether all pairs were applied or not, the map is as before exactly when
there was none or the first was present. -/
theorem addUntilPresent_unchanged_iff (m : κ → Option ν) (pairs : List (κ × ν)) :
    (addUntilPresent m pairs).2 = m ↔ ∀ kv, pairs.head? = some kv → (m kv.1).isSome := by
  cases pairs with
  | nil => simp [addUntilPresent]
  | cons kv rest =>
    simp only [List.head?_cons, Option.some.injEq, forall_eq', addUntilPresent]
    split
    next present => simp only [present]
    next absent =>
      -- The first pair has been stored, and nothing takes it out again.
      have stored := addUntilPresent_keeps (Function.update m kv.1 (some kv.2)) rest kv.1
        (by rw [Function.update_self, Option.isSome_some])
      constructor
      · intro unchanged
        rw [unchanged, Function.update_self] at stored
        rw [stored, Option.isSome_some]
      · intro present
        exact absurd present absent

end overwrite

section lookup

variable [BEq κ] [LawfulBEq κ]

theorem lookup_eq_none_iff_not_mem (pairs : List (κ × ν)) (name : κ) :
    pairs.lookup name = none ↔ name ∉ pairs.map Prod.fst := by
  rw [List.lookup_eq_none_iff]
  simp only [bne_iff_ne, List.mem_map, not_exists, not_and]
  exact ⟨fun h kv member same => h kv member same.symm,
    fun h kv member same => h kv member same.symm⟩

/-- The last pair of a name is the one that overwriting leaves. -/
theorem overwrite_eq_reverse_lookup [DecidableEq κ] (m : κ → Option ν) (pairs : List (κ × ν))
    (name : κ) : overwrite m pairs name = (pairs.reverse.lookup name).or (m name) := by
  induction pairs generalizing m with
  | nil => simp
  | cons kv rest ih =>
    rw [overwrite_cons, ih, List.reverse_cons, List.lookup_append, Option.or_assoc]
    congr 1
    by_cases same : name = kv.1
    · subst name
      rw [List.lookup_cons, BEq.rfl, Function.update_self]
      rfl
    · have other : (name == kv.1) = false := beq_eq_false_iff_ne.mpr same
      rw [Function.update_of_ne same, List.lookup_cons, other]
      rfl

/-- The first pair of a name is the one that is added where it is missing. -/
theorem addMissing_eq_lookup [DecidableEq κ] (m : κ → Option ν) (pairs : List (κ × ν))
    (name : κ) : addMissing m pairs name = (m name).or (pairs.lookup name) := by
  induction pairs generalizing m with
  | nil => simp [addMissing]
  | cons kv rest ih =>
    rw [addMissing, ih, List.lookup_cons]
    by_cases same : name = kv.1
    · subst name
      cases here : m kv.1 <;> simp [here]
    · have other : (name == kv.1) = false := beq_eq_false_iff_ne.mpr same
      rw [other]
      split
      · rfl
      · rw [Function.update_of_ne same]

/-- With distinct names, overwriting is the pointwise update by the list. -/
theorem overwrite_eq_lookup [DecidableEq κ] (m : κ → Option ν) (pairs : List (κ × ν))
    (distinct : (pairs.map Prod.fst).Nodup) (name : κ) :
    overwrite m pairs name = (pairs.lookup name).or (m name) := by
  induction pairs generalizing m with
  | nil => simp
  | cons kv rest ih =>
    rw [List.map_cons, List.nodup_cons] at distinct
    rw [overwrite_cons, List.lookup_cons]
    by_cases same : name = kv.1
    · subst name
      rw [overwrite_absent _ _ _ distinct.1]
      simp
    · have other : (name == kv.1) = false := beq_eq_false_iff_ne.mpr same
      rw [ih _ distinct.2, Function.update_of_ne same, other]

/-- Distinct names have one pair each, the first and the last. -/
theorem lookup_reverse_of_distinct [DecidableEq κ] (pairs : List (κ × ν))
    (distinct : (pairs.map Prod.fst).Nodup) (name : κ) :
    pairs.lookup name = pairs.reverse.lookup name := by
  have first := overwrite_eq_lookup (fun _ => none) pairs distinct name
  have last := overwrite_eq_reverse_lookup (fun _ => none) pairs name
  rw [Option.or_none] at first last
  exact first.symm.trans last

end lookup

end YcsbCloud.Library.PartialMap
