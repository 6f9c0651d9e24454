import Mathlib.Data.List.Nodup
import Mathlib.Logic.Function.Basic

/-!
# Cells that have one place each

The cells below a bound, of which one is active, some are held in common, and the others are
owned by a thread each. The rules move a cell from one place to another.
-/
namespace YcsbCloud.Library.Places

variable {ι : Type*} [DecidableEq ι]

/-- Every cell has one place: active, held, or owned by a thread. -/
structure Placed (n active : ℕ) (held : List ℕ) (owners : ι → Option ℕ) : Prop where
  active_lt : active < n
  active_free : active ∉ held
  held_lt : ∀ p ∈ held, p < n
  held_nodup : held.Nodup
  owned : ∀ i p, owners i = some p → p < n ∧ p ≠ active ∧ p ∉ held
  once : ∀ i j p, owners i = some p → owners j = some p → i = j
  covered : ∀ p < n, p = active ∨ p ∈ held ∨ ∃ i, owners i = some p

namespace Placed

variable {n active : ℕ} {held : List ℕ} {owners : ι → Option ℕ}

/-- What a thread comes to own, it owns alone. -/
theorem owner_update (placed : Placed n active held owners) {i : ι} {p : ℕ}
    (alone : ∀ j, owners j = some p → j = i) (j k : ι) (q : ℕ)
    (first : Function.update owners i (some p) j = some q)
    (second : Function.update owners i (some p) k = some q) : j = k := by
  by_cases mine : j = i
  · subst mine
    rw [Function.update_self] at first
    cases first
    by_cases same : k = j
    · exact same.symm
    · rw [Function.update_of_ne same] at second
      exact (alone k second).symm
  · rw [Function.update_of_ne mine] at first
    by_cases same : k = i
    · subst same
      rw [Function.update_self] at second
      cases second
      exact absurd (alone j first) mine
    · rw [Function.update_of_ne same] at second
      exact placed.once j k q first second

/-- A thread makes a cell. -/
theorem make (placed : Placed n active held owners) {i : ι} (free : owners i = none) :
    Placed (n + 1) active held (Function.update owners i (some n)) where
  active_lt := Nat.lt_succ_of_lt placed.active_lt
  active_free := placed.active_free
  held_lt := fun p member => Nat.lt_succ_of_lt (placed.held_lt p member)
  held_nodup := placed.held_nodup
  owned := by
    intro j p owns
    by_cases mine : j = i
    · subst mine
      rw [Function.update_self] at owns
      cases owns
      exact ⟨Nat.lt_succ_self n, Nat.ne_of_gt placed.active_lt,
        fun member => Nat.lt_irrefl n (placed.held_lt n member)⟩
    · rw [Function.update_of_ne mine] at owns
      obtain ⟨below, apart⟩ := placed.owned j p owns
      exact ⟨Nat.lt_succ_of_lt below, apart⟩
  once := placed.owner_update fun j owns => absurd (placed.owned j n owns).1 (Nat.lt_irrefl n)
  covered := by
    intro p below
    by_cases new : p = n
    · exact .inr (.inr ⟨i, by rw [Function.update_self, new]⟩)
    · refine (placed.covered p (by omega)).imp_right (Or.imp_right ?_)
      rintro ⟨j, owns⟩
      have other : j ≠ i := by
        rintro rfl
        rw [free] at owns
        cases owns
      exact ⟨j, by rwa [Function.update_of_ne other]⟩

/-- A thread takes a cell that is held. -/
theorem take (placed : Placed n active held owners) {i : ι} (free : owners i = none) {p : ℕ}
    (member : p ∈ held) :
    Placed n active (held.filter (· ≠ p)) (Function.update owners i (some p)) where
  active_lt := placed.active_lt
  active_free := fun kept => placed.active_free (List.mem_filter.mp kept).1
  held_lt := fun q kept => placed.held_lt q (List.mem_filter.mp kept).1
  held_nodup := placed.held_nodup.filter _
  owned := by
    intro j q owns
    by_cases mine : j = i
    · subst mine
      rw [Function.update_self] at owns
      cases owns
      refine ⟨placed.held_lt p member, ?_, fun kept => ?_⟩
      · rintro rfl
        exact placed.active_free member
      · exact of_decide_eq_true (List.mem_filter.mp kept).2 rfl
    · rw [Function.update_of_ne mine] at owns
      obtain ⟨below, apart, outside⟩ := placed.owned j q owns
      exact ⟨below, apart, fun kept => outside (List.mem_filter.mp kept).1⟩
  once := placed.owner_update fun j owns => absurd member (placed.owned j p owns).2.2
  covered := by
    intro q below
    by_cases mine : q = p
    · exact .inr (.inr ⟨i, by rw [Function.update_self, mine]⟩)
    · rcases placed.covered q below with at_active | at_held | ⟨j, owns⟩
      · exact .inl at_active
      · exact .inr (.inl (List.mem_filter.mpr ⟨at_held, decide_eq_true mine⟩))
      · have other : j ≠ i := by
          rintro rfl
          rw [free] at owns
          cases owns
        exact .inr (.inr ⟨j, by rwa [Function.update_of_ne other]⟩)

/-- A thread puts the cell it owns in the place of the active one. -/
theorem swap (placed : Placed n active held owners) {i : ι} {p : ℕ} (owns : owners i = some p) :
    Placed n p held (Function.update owners i (some active)) where
  active_lt := (placed.owned i p owns).1
  active_free := (placed.owned i p owns).2.2
  held_lt := placed.held_lt
  held_nodup := placed.held_nodup
  owned := by
    intro j q owned
    by_cases mine : j = i
    · subst mine
      rw [Function.update_self] at owned
      cases owned
      exact ⟨placed.active_lt, (placed.owned j p owns).2.1.symm, placed.active_free⟩
    · rw [Function.update_of_ne mine] at owned
      obtain ⟨below, _, outside⟩ := placed.owned j q owned
      refine ⟨below, ?_, outside⟩
      rintro rfl
      exact mine (placed.once j i q owned owns)
  once := placed.owner_update fun j owned => absurd rfl (placed.owned j active owned).2.1
  covered := by
    intro q below
    rcases placed.covered q below with at_active | at_held | ⟨j, owned⟩
    · exact .inr (.inr ⟨i, by rw [Function.update_self, at_active]⟩)
    · exact .inr (.inl at_held)
    · by_cases mine : j = i
      · subst mine
        rw [owns] at owned
        cases owned
        exact .inl rfl
      · exact .inr (.inr ⟨j, by rwa [Function.update_of_ne mine]⟩)

/-- A thread gives the cell it owns to be held. -/
theorem give (placed : Placed n active held owners) {i : ι} {p : ℕ} (owns : owners i = some p) :
    Placed n active (held ++ [p]) (Function.update owners i none) where
  active_lt := placed.active_lt
  active_free := by
    intro member
    rcases List.mem_append.mp member with old | new
    · exact placed.active_free old
    · exact (placed.owned i p owns).2.1 (List.mem_singleton.mp new).symm
  held_lt := by
    intro q member
    rcases List.mem_append.mp member with old | new
    · exact placed.held_lt q old
    · rw [List.mem_singleton.mp new]
      exact (placed.owned i p owns).1
  held_nodup := by
    refine List.Nodup.append placed.held_nodup (List.nodup_singleton p) ?_
    rw [List.disjoint_singleton]
    exact (placed.owned i p owns).2.2
  owned := by
    intro j q owned
    have other : j ≠ i := by
      rintro rfl
      rw [Function.update_self] at owned
      cases owned
    rw [Function.update_of_ne other] at owned
    obtain ⟨below, apart, outside⟩ := placed.owned j q owned
    refine ⟨below, apart, fun member => ?_⟩
    rcases List.mem_append.mp member with old | new
    · exact outside old
    · rw [List.mem_singleton.mp new] at owned
      exact other (placed.once j i p owned owns)
  once := by
    intro j k q first second
    have apart {l : ι} (owned : Function.update owners i none l = some q) : owners l = some q := by
      by_cases mine : l = i
      · subst mine
        rw [Function.update_self] at owned
        cases owned
      · rwa [Function.update_of_ne mine] at owned
    exact placed.once j k q (apart first) (apart second)
  covered := by
    intro q below
    rcases placed.covered q below with at_active | at_held | ⟨j, owned⟩
    · exact .inl at_active
    · exact .inr (.inl (List.mem_append_left _ at_held))
    · by_cases mine : j = i
      · subst mine
        rw [owns] at owned
        cases owned
        exact .inr (.inl (List.mem_append_right _ (List.mem_singleton.mpr rfl)))
      · exact .inr (.inr ⟨j, by rwa [Function.update_of_ne mine]⟩)

omit [DecidableEq ι] in
/-- The cells are the active one, those held, and others that are owned. -/
theorem perm (placed : Placed n active held owners) :
    ∃ others, (List.range n).Perm (active :: (held ++ others)) ∧
      ∀ p ∈ others, ∃ i, owners i = some p := by
  have nodup : (active :: held).Nodup := List.nodup_cons.mpr ⟨placed.active_free, placed.held_nodup⟩
  refine ⟨(List.range n).filter (· ∉ active :: held), ?_, ?_⟩
  · rw [← List.cons_append, List.perm_ext_iff_of_nodup List.nodup_range]
    · intro p
      rw [List.mem_append, List.mem_filter, List.mem_range, decide_eq_true_iff]
      constructor
      · intro below
        by_cases placed : p ∈ active :: held
        · exact .inl placed
        · exact .inr ⟨below, placed⟩
      · rintro (member | ⟨below, _⟩)
        · rcases List.mem_cons.mp member with rfl | at_held
          · exact placed.active_lt
          · exact placed.held_lt p at_held
        · exact below
    · refine List.Nodup.append nodup (List.nodup_range.filter _) ?_
      intro p member other
      exact of_decide_eq_true (List.mem_filter.mp other).2 member
  · intro p member
    obtain ⟨below, apart⟩ := List.mem_filter.mp member
    obtain ⟨inactive, unheld⟩ := not_or.mp (List.mem_cons.not.mp (of_decide_eq_true apart))
    exact ((placed.covered p (List.mem_range.mp below)).resolve_left inactive).resolve_left unheld

end Placed

omit [DecidableEq ι] in
/-- One cell, the active one. -/
theorem placed_init : Placed 1 0 [] fun _ : ι => none where
  active_lt := Nat.one_pos
  active_free := List.not_mem_nil
  held_lt := fun _ member => nomatch member
  held_nodup := List.nodup_nil
  owned := fun _ _ => nofun
  once := fun _ _ _ => nofun
  covered := fun _ below => .inl (Nat.lt_one_iff.mp below)

end YcsbCloud.Library.Places
