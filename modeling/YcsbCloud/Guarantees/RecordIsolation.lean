import YcsbCloud.Guarantees.HashtableRefinement

/-!
# Records of `HashtableDB` and the index they share

The index of a record is its table name followed by its key, with nothing
between them. Calls on one record leave another alone exactly when the two
indices differ; two records of one index are one record.
-/
namespace YcsbCloud.Guarantees.RecordIsolation
open Library Source Source.HashtableDB HashtableOwnership HashtableRefinement

variable {H : Type → Type} [StringHashtable H]

omit [StringHashtable H] in
theorem projectEntries_congr {s s' : HashtableDB H} (entries : List (CStr × StringRef))
    (same : ∀ entry ∈ entries, s'.strings entry.2 = s.strings entry.2) :
    s'.projectEntries entries = s.projectEntries entries := by
  induction entries with
  | nil => rfl
  | cons entry rest ih =>
    rw [List.forall_mem_cons] at same
    rw [projectEntries, projectEntries, same.1, ih same.2]

theorem projectFields_congr {s s' : HashtableDB H} (fieldsOf : H StringRef) (fields : List Bytes)
    (same : ∀ name str, StringHashtable.get fieldsOf name = some str →
      s'.strings str = s.strings str) :
    s'.projectFields fieldsOf fields = s.projectFields fieldsOf fields := by
  induction fields with
  | nil => rfl
  | cons field rest ih =>
    rw [projectFields, projectFields, ih]
    cases held : StringHashtable.get fieldsOf (cStr field) with
    | none => rfl
    | some str => simp only [same _ str held]

section calls

variable [LawfulStringHashtable H] {s s' : HashtableDB H}

/-- A read of another record finds the table and the strings it found before. -/
theorem Framed.read {index : CStr} (framed : Framed index s s') (wf : WellFormed s)
    {table key : Bytes} (apart : keyIndex table key ≠ index) (fields : Option (List Bytes))
    (result : List KVPair) : s'.read table key fields result = s.read table key fields result := by
  unfold HashtableDB.read
  rw [framed.keys _ apart]
  cases found : StringHashtable.get s.keyTable (keyIndex table key) with
  | none => rfl
  | some ref =>
    obtain ⟨_, fieldsOf, here⟩ := wf.allocated _ ref found
    have own := fieldTable_of_get found here
    have here' : s'.tables ref = some fieldsOf := by
      have kept := framed.tables _ apart
      rw [own, fieldTable, framed.keys _ apart, found, Option.bind_some] at kept
      exact kept
    have strings : ∀ name str, StringHashtable.get fieldsOf name = some str →
        s'.strings str = s.strings str :=
      fun name str held => framed.strings _ fieldsOf name str apart own held
    have projected : s'.project ref fields = s.project ref fields := by
      unfold project
      rw [here, here']
      cases fields with
      | none =>
        exact projectEntries_congr _ fun entry member =>
          strings entry.1 entry.2 (LawfulStringHashtable.entries_sound _ _ _ entry member)
      | some fields => exact projectFields_congr fieldsOf fields strings
    simp only [projected]

/-- Every call returns, and is a call on the record of its index alone. -/
theorem perform_framed (wf : WellFormed s) (call : Call) :
    ∃ s' reply, perform s call = some (s', reply) ∧ WellFormed s' ∧
      Framed (keyIndex call.table call.key) s s' ∧
      ((∀ values, call ≠ .insert call.table call.key values ∧
          call ≠ .update call.table call.key values) →
        records s (keyIndex call.table call.key) = none →
        records s' (keyIndex call.table call.key) = none) := by
  cases call with
  | update table key values =>
    obtain ⟨s', ran, becomes⟩ := update_spec wf table key values
    refine ⟨s', _, perform_update ran, becomes.wellFormed, becomes.framed, ?_⟩
    intro unwritten
    exact absurd rfl (unwritten values).2
  | insert table key values =>
    obtain ⟨s', ran, becomes⟩ := insert_spec wf table key values
    refine ⟨s', _, perform_insert ran, becomes.wellFormed, becomes.framed, ?_⟩
    intro unwritten
    exact absurd rfl (unwritten values).1
  | delete table key =>
    obtain ⟨s', ran, becomes⟩ := delete_spec wf table key
    exact ⟨s', _, perform_delete ran, becomes.wellFormed, becomes.framed, fun _ _ => becomes.record⟩
  | read table key fields =>
    have returned := read_spec wf table key fields []
    cases found : records s (keyIndex table key) with
    | none =>
      rw [found] at returned
      exact ⟨s, _, perform_read returned, wf, .refl _ s, fun _ absent => absent⟩
    | some record =>
      rw [found] at returned
      obtain ⟨pairs, ran, _⟩ := returned
      exact ⟨s, _, perform_read ran, wf, .refl _ s, fun _ absent => absent⟩
  | scan table key len fields =>
    obtain ⟨_, result, ran, _⟩ := scan_spec wf table key len fields
    exact ⟨s, _, perform_scan ran, wf, .refl _ s, fun _ absent => absent⟩

theorem run_wellFormed (calls : List Call) (replies : List Reply)
    (ran : Machine.run perform (empty : HashtableDB H) calls = some (s, replies)) :
    WellFormed s := by
  refine Machine.run_invariant perform (fun _ => True) WellFormed ?_ empty s calls replies
    wellFormed_empty (fun _ _ => trivial) ran
  intro before call after reply wf _ moved
  obtain ⟨s', reply', performed, wf', _⟩ := perform_framed wf call
  rw [performed, Option.some.injEq, Prod.mk.injEq] at moved
  exact moved.1 ▸ wf'

/-- A state that some run of calls leads to from the empty database. -/
def Reached (s : HashtableDB H) : Prop :=
  ∃ calls replies, Machine.run perform empty calls = some (s, replies)

omit [LawfulStringHashtable H] in
theorem reached_empty : Reached (empty : HashtableDB H) := ⟨[], [], rfl⟩

omit [LawfulStringHashtable H] in
theorem Reached.step (reached : Reached s) {call : Call} {reply : Reply}
    (ran : perform s call = some (s', reply)) : Reached s' := by
  obtain ⟨calls, replies, before⟩ := reached
  refine ⟨calls ++ [call], replies ++ [reply], (Machine.run_append ..).mpr ?_⟩
  exact ⟨s, replies, [reply], before, (Machine.run_singleton ..).mpr ⟨reply, ran, rfl⟩, rfl⟩

theorem Reached.wellFormed (reached : Reached s) : WellFormed s := by
  obtain ⟨calls, replies, ran⟩ := reached
  exact run_wellFormed calls replies ran

/-- A record that no call of a run has written is absent. -/
theorem run_unwritten (index : CStr) (calls : List Call) (replies : List Reply)
    (unwritten : ∀ call ∈ calls, ∀ values, call = .insert call.table call.key values ∨
      call = .update call.table call.key values → keyIndex call.table call.key ≠ index)
    (ran : Machine.run perform (empty : HashtableDB H) calls = some (s, replies)) :
    WellFormed s ∧ records s index = none := by
  refine Machine.run_invariant perform (fun call => ∀ values,
      call = .insert call.table call.key values ∨ call = .update call.table call.key values →
        keyIndex call.table call.key ≠ index)
    (fun s => WellFormed s ∧ records s index = none) ?_ empty s calls replies ?_ unwritten ran
  · intro before call after reply ⟨wf, absent⟩ elsewhere moved
    obtain ⟨s', reply', performed, wf', framed, kept⟩ := perform_framed wf call
    rw [performed, Option.some.injEq, Prod.mk.injEq] at moved
    rw [← moved.1]
    refine ⟨wf', ?_⟩
    by_cases same : keyIndex call.table call.key = index
    · subst index
      refine kept (fun values => ⟨?_, ?_⟩) absent
      · intro writes
        exact elsewhere values (.inl writes) rfl
      · intro writes
        exact elsewhere values (.inr writes) rfl
    · rw [framed.records (Ne.symm same), absent]
  · exact ⟨wellFormed_empty,
      (records_eq_none_iff wellFormed_empty index).mpr (LawfulStringHashtable.get_new index)⟩

end calls

/-- In every state that calls reach, a call on the first record returns and leaves
every read of the second as it was; and while only the second has been written,
an insert of the first meets no field. -/
def Isolated (H : Type → Type) [StringHashtable H] (t₁ k₁ t₂ k₂ : Bytes) : Prop :=
  (∀ (calls : List Call) (s : HashtableDB H) (replies : List Reply),
    Machine.run perform empty calls = some (s, replies) →
    ∀ call : Call, call.table = t₁ → call.key = k₁ → ∃ s' reply,
      perform s call = some (s', reply) ∧
      ∀ fields result, ∃ answer, s.read t₂ k₂ fields result = some answer ∧
        s'.read t₂ k₂ fields result = some answer) ∧
  (∀ (calls : List Call) (s : HashtableDB H) (replies : List Reply),
    (∀ call ∈ calls, ∀ values, call = .insert call.table call.key values ∨
      call = .update call.table call.key values → call.table = t₂ ∧ call.key = k₂) →
    Machine.run perform empty calls = some (s, replies) →
    ∀ values : List KVPair, (∀ fieldPair ∈ values, NulFree fieldPair.1) →
      (values.map Prod.fst).Nodup →
      ∃ s', s.insert t₁ k₁ values = some (s', .kOK))

section isolated

variable [LawfulStringHashtable H]

theorem isolated_of_index_ne {t₁ k₁ t₂ k₂ : Bytes}
    (apart : keyIndex t₂ k₂ ≠ keyIndex t₁ k₁) : Isolated H t₁ k₁ t₂ k₂ := by
  constructor
  · rintro calls s replies ran call rfl rfl
    have wf := run_wellFormed calls replies ran
    obtain ⟨s', reply, performed, _, framed, _⟩ := perform_framed wf call
    refine ⟨s', reply, performed, ?_⟩
    intro fields result
    have answered : ∃ answer, s.read t₂ k₂ fields result = some answer := by
      have returned := read_spec wf t₂ k₂ fields result
      split at returned
      · exact ⟨_, returned⟩
      · obtain ⟨pairs, ran', _⟩ := returned
        exact ⟨_, ran'⟩
    obtain ⟨answer, answers⟩ := answered
    exact ⟨answer, answers, by rw [Framed.read framed wf apart, answers]⟩
  · intro calls s replies elsewhere ran values names distinct
    obtain ⟨wf, absent⟩ := run_unwritten (keyIndex t₁ k₁) calls replies (by
      intro call member values writes
      obtain ⟨table, key⟩ := elsewhere call member values writes
      rw [table, key]
      exact apart) ran
    obtain ⟨s', inserted, _⟩ := insert_spec wf t₁ k₁ values
    rw [absent, Option.getD_none, PartialMap.addUntilPresent_of_absent _ _
      (fieldPairs_nodup names distinct) fun _ _ => rfl] at inserted
    exact ⟨s', inserted⟩

/-- One index is one record: an insert of the first makes the second readable. -/
theorem not_isolated_of_index_eq {t₁ k₁ t₂ k₂ : Bytes}
    (same : keyIndex t₂ k₂ = keyIndex t₁ k₁) : ¬ Isolated H t₁ k₁ t₂ k₂ := by
  intro isolated
  obtain ⟨s', reply, performed, reads⟩ := isolated.1 [] empty [] rfl (.insert t₁ k₁ []) rfl rfl
  obtain ⟨answer, before, after⟩ := reads none []
  have absent : records (empty : HashtableDB H) (keyIndex t₁ k₁) = none :=
    (records_eq_none_iff wellFormed_empty _).mpr (LawfulStringHashtable.get_new _)
  obtain ⟨s'', inserted, becomes⟩ := insert_spec (s := empty) (H := H) wellFormed_empty t₁ k₁ []
  rw [perform_insert inserted, Option.some.injEq, Prod.mk.injEq] at performed
  obtain ⟨rfl, _⟩ := performed
  have missed := read_spec (wellFormed_empty (H := H)) t₂ k₂ none []
  rw [same, absent] at missed
  have met := read_spec becomes.wellFormed t₂ k₂ none []
  rw [same, becomes.record] at met
  obtain ⟨pairs, found, _⟩ := met
  rw [missed, Option.some.injEq] at before
  rw [found, Option.some.injEq] at after
  have codes : Status.kErrorNoData = .kOK := congrArg Prod.fst (before.trans after.symm)
  cases codes

end isolated

/-- Two records of NUL-free names are isolated exactly when their names differ
once written one after the other. -/
theorem isolated_iff_append_ne (H : Type → Type) [StringHashtable H] [LawfulStringHashtable H]
    (t₁ k₁ t₂ k₂ : Bytes) (ht₁ : NulFree t₁) (hk₁ : NulFree k₁) (ht₂ : NulFree t₂)
    (hk₂ : NulFree k₂) : Isolated H t₁ k₁ t₂ k₂ ↔ t₁ ++ k₁ ≠ t₂ ++ k₂ := by
  constructor
  · intro isolated same
    exact not_isolated_of_index_eq (congrArg cStr same.symm) isolated
  · intro different
    apply isolated_of_index_ne
    intro shared
    exact different (cStr_injective_on _ _ (ht₂.append hk₂) (ht₁.append hk₁) shared).symm

/-- `t1`/`k` and `t2`/`k` are two records. -/
theorem isolated_iff_append_ne_two_tables :
    Isolated ListTable [116, 49] [107] [116, 50] [107] ↔
      ([116, 49, 107] : Bytes) ≠ [116, 50, 107] :=
  isolated_iff_append_ne ListTable [116, 49] [107] [116, 50] [107] (by decide) (by decide)
    (by decide) (by decide)

/-- `ab`/`c` and `a`/`bc` are one record. -/
theorem split_names_not_isolated :
    ¬ ∀ t₁ k₁ t₂ k₂ : Bytes, NulFree t₁ → NulFree k₁ → NulFree t₂ → NulFree k₂ →
      (t₁, k₁) ≠ (t₂, k₂) → Isolated ListTable t₁ k₁ t₂ k₂ := by
  intro claimed
  have isolated := claimed [97, 98] [99] [97] [98, 99] (by decide) (by decide) (by decide)
    (by decide) (by decide)
  have same : keyIndex [97] [98, 99] = keyIndex [97, 98] [99] := rfl
  exact not_isolated_of_index_eq same isolated

end YcsbCloud.Guarantees.RecordIsolation
