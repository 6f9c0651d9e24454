import YcsbCloud.Guarantees.RecordIsolation

/-!
# Refused inserts and the two branches of `Update`

`Insert` stores its pairs one by one and returns at the first name that is taken,
with the pairs before it stored. `Update` on a new record inserts, on an
existing one it overwrites, so the two differ where a name is repeated.
-/
namespace YcsbCloud.Guarantees.HashtableWrites
open Library Source Source.HashtableDB HashtableOwnership RecordIsolation

variable {H : Type → Type} [StringHashtable H] [LawfulStringHashtable H] {s t : HashtableDB H}

/-- An insert returns, and if it is refused every record is what it was. -/
def RefusedUnchanged (s : HashtableDB H) (table key : Bytes) (values : List KVPair) : Prop :=
  ∃ s' status, s.insert table key values = some (s', status) ∧
    (status = .kErrorConflict → ∀ index, records s' index = records s index)

/-- The names of the pairs are distinct as C strings and not in the record. -/
def Unconflicted (before : Option Record) (pairs : List (CStr × CStr)) : Prop :=
  (pairs.map Prod.fst).Nodup ∧ ∀ record, before = some record → ∀ kv ∈ pairs, record kv.1 = none

/-- The first pair meets a field of the record. -/
def FirstTaken (before : Option Record) (pairs : List (CStr × CStr)) : Prop :=
  ∃ record kv, before = some record ∧ pairs.head? = some kv ∧ (record kv.1).isSome

theorem unconflicted_iff (before : Option Record) (pairs : List (CStr × CStr)) :
    Unconflicted before pairs ↔
      (PartialMap.addUntilPresent (before.getD fun _ => none) pairs).1 = true := by
  rw [PartialMap.addUntilPresent_all_iff]
  cases before with
  | none => simp [Unconflicted]
  | some record => simp [Unconflicted]

theorem refusedUnchanged_iff (wf : WellFormed s) (table key : Bytes) (values : List KVPair) :
    RefusedUnchanged s table key values ↔
      Unconflicted (records s (keyIndex table key)) (fieldPairs values) ∨
        FirstTaken (records s (keyIndex table key)) (fieldPairs values) := by
  obtain ⟨after, ran, becomes⟩ := insert_spec wf table key values
  have conflict := unconflicted_iff (records s (keyIndex table key)) (fieldPairs values)
  have unchanged := PartialMap.addUntilPresent_unchanged_iff
    ((records s (keyIndex table key)).getD fun _ => none) (fieldPairs values)
  constructor
  · intro ⟨s', status, inserted, kept⟩
    rw [ran, Option.some.injEq, Prod.mk.injEq] at inserted
    obtain ⟨rfl, rfl⟩ := inserted
    by_cases all : Unconflicted (records s (keyIndex table key)) (fieldPairs values)
    · exact .inl all
    right
    rw [conflict] at all
    rw [if_neg all] at kept
    have same := kept rfl (keyIndex table key)
    rw [becomes.record] at same
    cases before : records s (keyIndex table key) with
    | none =>
      -- The refused insert has left a new record behind.
      rw [before] at same
      cases same
    | some record =>
      rw [before, Option.getD_some] at unchanged all same
      have first := unchanged.mp (Option.some.inj same)
      cases pairs : fieldPairs values with
      | nil =>
        rw [pairs] at all
        exact absurd rfl all
      | cons kv rest =>
        rw [pairs] at first
        exact ⟨record, kv, rfl, rfl, first kv rfl⟩
  · rintro (all | ⟨record, kv, before, first, present⟩)
    · refine ⟨after, .kOK, ?_, fun refused => by cases refused⟩
      rw [ran, if_pos (conflict.mp all)]
    · refine ⟨after, _, ran, ?_⟩
      intro _ index
      by_cases here : index = keyIndex table key
      · subst index
        rw [before, Option.getD_some, first] at unchanged
        have same := unchanged.mpr fun other head => Option.some.inj head ▸ present
        rw [becomes.record, before, Option.getD_some, same]
      · exact becomes.framed.records here

/-- A refused insert changes nothing exactly when it could not be refused or is
refused at its first pair by a record that was there. -/
theorem refused_insert_unchanged_iff (H : Type → Type) [StringHashtable H]
    [LawfulStringHashtable H] (s : HashtableDB H) (reached : Reached s) (table key : Bytes)
    (values : List KVPair) :
    RefusedUnchanged s table key values ↔
      Unconflicted (records s (keyIndex table key)) (fieldPairs values) ∨
        FirstTaken (records s (keyIndex table key)) (fieldPairs values) :=
  refusedUnchanged_iff reached.wellFormed table key values

/-- Two fields of a new record. -/
theorem refused_insert_unchanged_iff_new :
    RefusedUnchanged (empty : HashtableDB ListTable) [116] [107] [([97], [1]), ([98], [2])] :=
  (refused_insert_unchanged_iff ListTable empty reached_empty [116] [107] _).mpr
    (.inl ⟨by decide, fun record before => by cases before⟩)

/-- An insert into an empty database with one name twice: the first pair stays. -/
theorem refused_insert_leaves_record :
    ¬ ∀ s : HashtableDB ListTable, Reached s → ∀ (table key : Bytes) (values : List KVPair),
      RefusedUnchanged s table key values := by
  intro claimed
  have unchanged := claimed empty reached_empty [116] [107] [([97], [1]), ([97], [2])]
  have absent : records (empty : HashtableDB ListTable) (keyIndex [116] [107]) = none := rfl
  rcases (refusedUnchanged_iff wellFormed_empty _ _ _).mp unchanged with
    ⟨distinct, _⟩ | ⟨record, kv, before, _⟩
  · exact absurd distinct (by decide)
  · rw [absent] at before
    cases before

/-- On one state the update creates the record, on the other it fills an empty one;
both leave the pairs applied from left to right. -/
def BranchesAgree (s t : HashtableDB H) (table key : Bytes) (values : List KVPair) : Prop :=
  ∃ s' t', s.update table key values = some (s', .kOK) ∧
    t.update table key values = some (t', .kOK) ∧
    records s' (keyIndex table key) = records t' (keyIndex table key) ∧
    records t' (keyIndex table key) =
      some (PartialMap.overwrite (fun _ => none) (fieldPairs values))

theorem branchesAgree_iff (wf_s : WellFormed s) (wf_t : WellFormed t) (table key : Bytes)
    (values : List KVPair) (absent : records s (keyIndex table key) = none)
    (present : records t (keyIndex table key) = some fun _ => none) :
    BranchesAgree s t table key values ↔
      ∀ name, (fieldPairs values).lookup name = (fieldPairs values).reverse.lookup name := by
  obtain ⟨s₁, ran_s, becomes_s⟩ := update_spec wf_s table key values
  obtain ⟨t₁, ran_t, becomes_t⟩ := update_spec wf_t table key values
  have created := becomes_s.record
  have filled := becomes_t.record
  rw [absent, updated] at created
  rw [present, updated] at filled
  have pointwise : PartialMap.addMissing (fun _ => none) (fieldPairs values) =
      PartialMap.overwrite (fun _ => none) (fieldPairs values) ↔
        ∀ name, (fieldPairs values).lookup name = (fieldPairs values).reverse.lookup name := by
    rw [funext_iff]
    apply forall_congr'
    intro name
    rw [PartialMap.addMissing_eq_lookup, PartialMap.overwrite_eq_reverse_lookup, Option.none_or,
      Option.or_none]
  rw [← pointwise]
  constructor
  · intro ⟨s', t', updated_s, updated_t, same, _⟩
    rw [ran_s, Option.some.injEq, Prod.mk.injEq] at updated_s
    rw [ran_t, Option.some.injEq, Prod.mk.injEq] at updated_t
    rw [← updated_s.1, ← updated_t.1, created, filled] at same
    exact Option.some.inj same
  · intro same
    exact ⟨s₁, t₁, ran_s, ran_t, by rw [created, filled, same], filled⟩

/-- The two branches leave the same record exactly when no name is given one
value first and another last. -/
theorem update_branches_agree_iff (H : Type → Type) [StringHashtable H]
    [LawfulStringHashtable H] (s t : HashtableDB H) (reached_s : Reached s) (reached_t : Reached t)
    (table key : Bytes) (values : List KVPair) (absent : records s (keyIndex table key) = none)
    (present : records t (keyIndex table key) = some fun _ => none) :
    BranchesAgree s t table key values ↔
      ∀ name, (fieldPairs values).lookup name = (fieldPairs values).reverse.lookup name :=
  branchesAgree_iff reached_s.wellFormed reached_t.wellFormed table key values absent present

/-- A record without fields, as an insert of no pairs leaves it. -/
theorem empty_record_reached (table key : Bytes) : ∃ t : HashtableDB ListTable, Reached t ∧
    records t (keyIndex table key) = some fun _ => none := by
  have absent : records (empty : HashtableDB ListTable) (keyIndex table key) = none := rfl
  obtain ⟨t, ran, becomes⟩ := insert_spec (wellFormed_empty (H := ListTable)) table key []
  refine ⟨t, reached_empty.step (perform_insert ran), ?_⟩
  rw [becomes.record, absent]
  rfl

/-- Two names, once each. -/
theorem update_branches_agree_iff_distinct : ∃ t : HashtableDB ListTable,
    BranchesAgree empty t [116] [107] [([97], [1]), ([98], [2])] := by
  obtain ⟨t, reached, present⟩ := empty_record_reached [116] [107]
  refine ⟨t, (update_branches_agree_iff ListTable empty t reached_empty reached [116] [107] _ rfl
    present).mpr ?_⟩
  exact PartialMap.lookup_reverse_of_distinct _ (by decide)

/-- One name with two values: the new record keeps the first. -/
theorem repeated_name_splits_branches :
    ¬ ∀ s t : HashtableDB ListTable, Reached s → Reached t → ∀ (table key : Bytes)
      (values : List KVPair), records s (keyIndex table key) = none →
      records t (keyIndex table key) = (some fun _ => none) →
        BranchesAgree s t table key values := by
  intro claimed
  obtain ⟨t, reached, present⟩ := empty_record_reached [116] [107]
  have agree := claimed empty t reached_empty reached [116] [107] [([97], [1]), ([97], [2])] rfl
    present
  have ends := (branchesAgree_iff wellFormed_empty reached.wellFormed [116] [107] _ rfl
    present).mp agree (cStr [97])
  exact absurd ends (by decide)

end YcsbCloud.Guarantees.HashtableWrites
