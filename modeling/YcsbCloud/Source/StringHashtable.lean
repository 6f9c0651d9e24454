import YcsbCloud.Library.PartialMap
import YcsbCloud.Source.Strings

/-!
# `vmp::StringHashtable`

The header declares an abstract class and the tree has no implementation, so the
table is a parameter: its operations are a class over the type of the stored
values, and that it is a finite map on C strings is a class of laws. A table
that keeps its pairs in a list is an instance of both.
-/
namespace YcsbCloud.Source
open Library

/-- The default `n` of `Entries`, `(std::size_t) -1`. -/
def allEntries : Nat := UInt64.size - 1

/-- The operations of `StringHashtable<V>`; a result of `none` is NULL. -/
class StringHashtable (H : Type → Type) where
  new {V : Type} : H V
  get {V : Type} (table : H V) (key : CStr) : Option V
  insert {V : Type} (table : H V) (key : CStr) (value : V) : Bool × H V
  update {V : Type} (table : H V) (key : CStr) (value : V) : Option V × H V
  remove {V : Type} (table : H V) (key : CStr) : Option V × H V
  entries {V : Type} (table : H V) (key : Option CStr) (n : Nat) : List (CStr × V)

/-- A table is a finite map. What is listed from a key on is a part of it, each
entry once; without a key and a limit it is all of it. -/
class LawfulStringHashtable (H : Type → Type) [StringHashtable H] : Prop where
  get_new {V : Type} (key : CStr) : StringHashtable.get (StringHashtable.new : H V) key = none
  insert_result {V : Type} (table : H V) (key : CStr) (value : V) :
    (StringHashtable.insert table key value).1 = (StringHashtable.get table key).isNone
  get_insert {V : Type} (table : H V) (key queried : CStr) (value : V) :
    StringHashtable.get (StringHashtable.insert table key value).2 queried =
      if queried = key then some ((StringHashtable.get table key).getD value)
      else StringHashtable.get table queried
  update_result {V : Type} (table : H V) (key : CStr) (value : V) :
    (StringHashtable.update table key value).1 = StringHashtable.get table key
  get_update {V : Type} (table : H V) (key queried : CStr) (value : V) :
    StringHashtable.get (StringHashtable.update table key value).2 queried =
      if queried = key then (StringHashtable.get table key).map fun _ => value
      else StringHashtable.get table queried
  remove_result {V : Type} (table : H V) (key : CStr) :
    (StringHashtable.remove table key).1 = StringHashtable.get table key
  get_remove {V : Type} (table : H V) (key queried : CStr) :
    StringHashtable.get (StringHashtable.remove table key).2 queried =
      if queried = key then none else StringHashtable.get table queried
  entries_sound {V : Type} (table : H V) (key : Option CStr) (n : Nat) (entry : CStr × V) :
    entry ∈ StringHashtable.entries table key n →
      StringHashtable.get table entry.1 = some entry.2
  entries_nodup {V : Type} (table : H V) (key : Option CStr) (n : Nat) :
    ((StringHashtable.entries table key n).map Prod.fst).Nodup
  entries_complete {V : Type} (table : H V) (key : CStr) (value : V) :
    StringHashtable.get table key = some value →
      (key, value) ∈ StringHashtable.entries table none allEntries

/-- Pairs with distinct keys. -/
structure ListTable (V : Type) where
  pairs : List (CStr × V)
  distinct : (pairs.map Prod.fst).Nodup

namespace ListTable

variable {V : Type}

def get (table : ListTable V) (key : CStr) : Option V := table.pairs.lookup key

def insert (table : ListTable V) (key : CStr) (value : V) : Bool × ListTable V :=
  if absent : key ∉ table.pairs.map Prod.fst then
    (true, ⟨(key, value) :: table.pairs, List.nodup_cons.mpr ⟨absent, table.distinct⟩⟩)
  else (false, table)

/-- The pairs with the value of one key replaced. -/
def replace (key : CStr) (value : V) (pairs : List (CStr × V)) : List (CStr × V) :=
  pairs.map fun entry => if entry.1 = key then (key, value) else entry

theorem replace_keys (key : CStr) (value : V) (pairs : List (CStr × V)) :
    (replace key value pairs).map Prod.fst = pairs.map Prod.fst := by
  rw [replace, List.map_map]
  apply List.map_congr_left
  intro entry _
  simp only [Function.comp_apply]
  split
  next same => exact same.symm
  · rfl

def update (table : ListTable V) (key : CStr) (value : V) : Option V × ListTable V :=
  (table.get key, ⟨replace key value table.pairs, by rw [replace_keys]; exact table.distinct⟩)

def remove (table : ListTable V) (key : CStr) : Option V × ListTable V :=
  (table.get key, ⟨table.pairs.filter fun entry => entry.1 ≠ key,
    table.distinct.sublist (List.filter_sublist.map Prod.fst)⟩)

/-- The pairs from a key on, in the order of the list. -/
def entries (table : ListTable V) (key : Option CStr) (n : Nat) : List (CStr × V) :=
  let tail := match key with
    | none => table.pairs
    | some key => table.pairs.dropWhile fun entry => entry.1 ≠ key
  if n = allEntries then tail else tail.take n

instance : StringHashtable ListTable where
  new := ⟨[], List.nodup_nil⟩
  get := get
  insert := insert
  update := update
  remove := remove
  entries := entries

theorem lookup_cons_ite (key queried : CStr) (value : V) (pairs : List (CStr × V)) :
    ((key, value) :: pairs).lookup queried =
      if queried = key then some value else pairs.lookup queried := by
  rw [List.lookup_cons]
  by_cases same : queried = key
  · simp [same]
  · simp [same, beq_eq_false_iff_ne.mpr same]

theorem lookup_replace (key queried : CStr) (value : V) (pairs : List (CStr × V)) :
    (replace key value pairs).lookup queried =
      if queried = key then (pairs.lookup key).map fun _ => value else pairs.lookup queried := by
  induction pairs with
  | nil => simp [replace]
  | cons entry rest ih =>
    obtain ⟨name, stored⟩ := entry
    simp only [replace, List.map_cons] at ih ⊢
    by_cases here : name = key
    · subst name
      rw [if_pos rfl, lookup_cons_ite, lookup_cons_ite, lookup_cons_ite, ih]
      by_cases same : queried = key <;> simp [same]
    · rw [if_neg here, lookup_cons_ite, lookup_cons_ite, lookup_cons_ite, ih]
      by_cases same : queried = key
      · subst queried
        simp [Ne.symm here]
      · simp [same]

theorem lookup_filter (key queried : CStr) (pairs : List (CStr × V)) :
    (pairs.filter fun entry => entry.1 ≠ key).lookup queried =
      if queried = key then none else pairs.lookup queried := by
  induction pairs with
  | nil => simp
  | cons entry rest ih =>
    obtain ⟨name, stored⟩ := entry
    rw [List.filter_cons]
    by_cases here : name = key
    · subst name
      simp only [ne_eq, not_true_eq_false, decide_false, Bool.false_eq_true, if_false] at ih ⊢
      rw [ih, lookup_cons_ite]
      by_cases same : queried = key <;> simp [same]
    · simp only [ne_eq, here, not_false_eq_true, decide_true, if_true] at ih ⊢
      rw [lookup_cons_ite, lookup_cons_ite, ih]
      by_cases same : queried = key
      · subst queried
        simp [Ne.symm here]
      · simp [same]

theorem lookup_of_mem (pairs : List (CStr × V)) (distinct : (pairs.map Prod.fst).Nodup)
    (entry : CStr × V) (member : entry ∈ pairs) : pairs.lookup entry.1 = some entry.2 := by
  induction pairs with
  | nil => cases member
  | cons head rest ih =>
    rw [List.map_cons, List.nodup_cons] at distinct
    rw [lookup_cons_ite]
    rcases List.mem_cons.mp member with rfl | later
    · exact if_pos rfl
    · have other : entry.1 ≠ head.1 := by
        intro same
        exact distinct.1 (List.mem_map.mpr ⟨entry, later, same⟩)
      rw [if_neg other]
      exact ih distinct.2 later

theorem mem_of_lookup (pairs : List (CStr × V)) (key : CStr) (value : V)
    (found : pairs.lookup key = some value) : (key, value) ∈ pairs := by
  induction pairs with
  | nil => cases found
  | cons head rest ih =>
    rw [lookup_cons_ite] at found
    split at found
    next same =>
      cases found
      exact List.mem_cons.mpr (.inl (by rw [same]))
    · exact List.mem_cons_of_mem _ (ih found)

theorem entries_sublist (table : ListTable V) (key : Option CStr) (n : Nat) :
    (table.entries key n).Sublist table.pairs := by
  unfold entries
  cases key with
  | none =>
    dsimp only
    split
    · exact List.Sublist.refl _
    · exact List.take_sublist _ _
  | some key =>
    dsimp only
    split
    · exact List.dropWhile_sublist _
    · exact (List.take_sublist _ _).trans (List.dropWhile_sublist _)

instance : LawfulStringHashtable ListTable where
  get_new key := rfl
  insert_result table key value := by
    show (insert table key value).1 = (table.pairs.lookup key).isNone
    unfold insert
    split
    next absent =>
      rw [(PartialMap.lookup_eq_none_iff_not_mem _ _).mpr absent]
      rfl
    next present =>
      cases found : table.pairs.lookup key with
      | none => exact absurd ((PartialMap.lookup_eq_none_iff_not_mem _ _).mp found) present
      | some old => rfl
  get_insert table key queried value := by
    show (insert table key value).2.pairs.lookup queried = _
    unfold insert
    split
    next absent =>
      have unfound := (PartialMap.lookup_eq_none_iff_not_mem _ _).mpr absent
      simp only [lookup_cons_ite, StringHashtable.get, get, unfound, Option.getD_none]
    next present =>
      cases found : table.pairs.lookup key with
      | none => exact absurd ((PartialMap.lookup_eq_none_iff_not_mem _ _).mp found) present
      | some old =>
        simp only [StringHashtable.get, get, found, Option.getD_some]
        by_cases same : queried = key
        · rw [if_pos same, same, found]
        · rw [if_neg same]
  update_result table key value := rfl
  get_update table key queried value := lookup_replace key queried value table.pairs
  remove_result table key := rfl
  get_remove table key queried := lookup_filter key queried table.pairs
  entries_sound table key n entry member :=
    lookup_of_mem table.pairs table.distinct entry ((entries_sublist table key n).subset member)
  entries_nodup table key n := table.distinct.sublist ((entries_sublist table key n).map Prod.fst)
  entries_complete table key value found := by
    show (key, value) ∈ table.entries none allEntries
    simp only [entries, if_true]
    exact mem_of_lookup table.pairs key value found

end ListTable

end YcsbCloud.Source
