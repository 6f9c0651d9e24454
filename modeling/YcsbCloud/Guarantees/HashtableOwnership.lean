import YcsbCloud.Source.HashtableDB

/-!
# Who holds what in `HashtableDB`

In every state that calls reach, each record has its own field table and each
stored value its own live string. So no call follows a dangling reference, and a
call on one record leaves the table and the strings of the others alone.
-/
namespace YcsbCloud.Guarantees.HashtableOwnership
open Library Source Source.HashtableDB

variable {H : Type → Type} [StringHashtable H]

/-- The field table of a record. -/
def fieldTable (s : HashtableDB H) (index : CStr) : Option (H StringRef) :=
  (StringHashtable.get s.keyTable index).bind s.tables

abbrev Record := CStr → Option CStr

/-- What a field table stands for, its references followed. -/
def contents (s : HashtableDB H) (fields : H StringRef) : Record := fun name =>
  (StringHashtable.get fields name).bind s.strings

/-- The two-level map that a state stands for. -/
def records (s : HashtableDB H) (index : CStr) : Option Record :=
  (fieldTable s index).map (contents s)

structure WellFormed (s : HashtableDB H) : Prop where
  /-- The key table refers to live field tables. -/
  allocated : ∀ index ref, StringHashtable.get s.keyTable index = some ref →
    ref < s.nextTable ∧ ∃ fields, s.tables ref = some fields
  /-- No two records share a field table. -/
  separate : ∀ i j ref, StringHashtable.get s.keyTable i = some ref →
    StringHashtable.get s.keyTable j = some ref → i = j
  /-- The field tables refer to live strings. -/
  live : ∀ index fields name str, fieldTable s index = some fields →
    StringHashtable.get fields name = some str →
      str < s.nextString ∧ ∃ value, s.strings str = some value
  /-- No string is stored twice. -/
  owner : ∀ i j fields fields' n m str, fieldTable s i = some fields →
    StringHashtable.get fields n = some str → fieldTable s j = some fields' →
    StringHashtable.get fields' m = some str → i = j ∧ n = m

/-- What a call on one record leaves alone: the tables of the others and the
strings they hold. -/
structure Framed (index : CStr) (s s' : HashtableDB H) : Prop where
  keys : ∀ other, other ≠ index →
    StringHashtable.get s'.keyTable other = StringHashtable.get s.keyTable other
  tables : ∀ other, other ≠ index → fieldTable s' other = fieldTable s other
  strings : ∀ other fields name str, other ≠ index → fieldTable s other = some fields →
    StringHashtable.get fields name = some str → s'.strings str = s.strings str

theorem Framed.refl (index : CStr) (s : HashtableDB H) : Framed index s s :=
  ⟨fun _ _ => rfl, fun _ _ => rfl, fun _ _ _ _ _ _ _ => rfl⟩

theorem Framed.trans {index : CStr} {s s' s'' : HashtableDB H} (first : Framed index s s')
    (second : Framed index s' s'') : Framed index s s'' := by
  refine ⟨?_, ?_, ?_⟩
  · intro other apart
    rw [second.keys other apart, first.keys other apart]
  · intro other apart
    rw [second.tables other apart, first.tables other apart]
  · intro other fields name str apart found stored
    have later : fieldTable s' other = some fields := by rw [first.tables other apart, found]
    rw [second.strings other fields name str apart later stored,
      first.strings other fields name str apart found stored]

theorem Framed.records {index other : CStr} {s s' : HashtableDB H} (framed : Framed index s s')
    (apart : other ≠ index) : records s' other = records s other := by
  unfold HashtableOwnership.records
  rw [framed.tables other apart]
  cases found : fieldTable s other with
  | none => rfl
  | some fields =>
    rw [Option.map_some, Option.map_some]
    congr 1
    funext name
    unfold contents
    cases stored : StringHashtable.get fields name with
    | none => rfl
    | some str => exact framed.strings other fields name str apart found stored

theorem records_eq_none_iff {s : HashtableDB H} (wf : WellFormed s) (index : CStr) :
    records s index = none ↔ StringHashtable.get s.keyTable index = none := by
  unfold records fieldTable
  cases found : StringHashtable.get s.keyTable index with
  | none => simp
  | some ref =>
    obtain ⟨_, fields, here⟩ := wf.allocated index ref found
    simp [here]

theorem records_of_get {s : HashtableDB H} {index : CStr} {ref : TableRef} {fields : H StringRef}
    (found : StringHashtable.get s.keyTable index = some ref)
    (here : s.tables ref = some fields) : records s index = some (contents s fields) := by
  rw [records, fieldTable, found, Option.bind_some, here, Option.map_some]

theorem fieldTable_of_get {s : HashtableDB H} {index : CStr} {ref : TableRef}
    {fields : H StringRef} (found : StringHashtable.get s.keyTable index = some ref)
    (here : s.tables ref = some fields) : fieldTable s index = some fields := by
  rw [fieldTable, found, Option.bind_some, here]

/-- A pointer that stays, to a table that stays, leaves a record its table. -/
theorem fieldTable_congr {s s' : HashtableDB H} {index : CStr}
    (keys : StringHashtable.get s'.keyTable index = StringHashtable.get s.keyTable index)
    (tables : ∀ ref, StringHashtable.get s.keyTable index = some ref →
      s'.tables ref = s.tables ref) :
    fieldTable s' index = fieldTable s index := by
  rw [fieldTable, fieldTable, keys]
  cases pointer : StringHashtable.get s.keyTable index with
  | none => rfl
  | some ref => exact tables ref pointer

/-- A field is present in a record exactly when the field table has an entry for it. -/
theorem contents_isSome {s : HashtableDB H} (wf : WellFormed s) {index : CStr}
    {fields : H StringRef} (own : fieldTable s index = some fields) (name : CStr) :
    (contents s fields name).isSome = (StringHashtable.get fields name).isSome := by
  unfold contents
  cases stored : StringHashtable.get fields name with
  | none => rfl
  | some str =>
    obtain ⟨_, value, live⟩ := wf.live index fields name str own stored
    simp [live]

/-- The state after one string has been allocated and one field table rewritten. -/
def rewritten (s : HashtableDB H) (ref : TableRef) (fields' : H StringRef)
    (strings' : StringRef → Option CStr) : HashtableDB H :=
  { s with
    tables := Function.update s.tables ref (some fields')
    strings := strings'
    nextString := s.nextString + 1 }

omit [StringHashtable H] in
@[simp] theorem rewritten_keyTable (s : HashtableDB H) (ref : TableRef) (fields' : H StringRef)
    (strings' : StringRef → Option CStr) :
    (rewritten s ref fields' strings').keyTable = s.keyTable := rfl

omit [StringHashtable H] in
@[simp] theorem rewritten_tables (s : HashtableDB H) (ref : TableRef) (fields' : H StringRef)
    (strings' : StringRef → Option CStr) :
    (rewritten s ref fields' strings').tables = Function.update s.tables ref (some fields') := rfl

omit [StringHashtable H] in
@[simp] theorem rewritten_strings (s : HashtableDB H) (ref : TableRef) (fields' : H StringRef)
    (strings' : StringRef → Option CStr) :
    (rewritten s ref fields' strings').strings = strings' := rfl

/-- What a call on a record makes of it, the others left alone. -/
structure Becomes (index : CStr) (s s' : HashtableDB H) (record : Option Record) : Prop where
  wellFormed : WellFormed s'
  framed : Framed index s s'
  record : records s' index = record

theorem Becomes.trans {index : CStr} {s s' s'' : HashtableDB H} {before after : Option Record}
    (first : Becomes index s s' before) (second : Becomes index s' s'' after) :
    Becomes index s s'' after :=
  ⟨second.wellFormed, first.framed.trans second.framed, second.record⟩

/-- A table rewritten after one allocation: under each name it holds the new
string or the one it held there, and only strings of its own have changed. -/
structure Rewrite (s : HashtableDB H) (index : CStr) (ref : TableRef)
    (fields fields' : H StringRef) (strings' : StringRef → Option CStr) : Prop where
  found : StringHashtable.get s.keyTable index = some ref
  here : s.tables ref = some fields
  stored : ∀ name str, StringHashtable.get fields' name = some str →
    (str = s.nextString ∧ ∃ value, strings' str = some value) ∨
      (StringHashtable.get fields name = some str ∧ strings' str = s.strings str)
  once : ∀ n m, StringHashtable.get fields' n = some s.nextString →
    StringHashtable.get fields' m = some s.nextString → n = m
  others : ∀ str, str < s.nextString → (∀ name, StringHashtable.get fields name ≠ some str) →
    strings' str = s.strings str

section rewrite

variable {s : HashtableDB H} {index other : CStr} {ref : TableRef}
  {fields fields' table : H StringRef} {strings' : StringRef → Option CStr} {name : CStr}
  {str : StringRef}

theorem Rewrite.own (edit : Rewrite s index ref fields fields' strings') :
    fieldTable s index = some fields := fieldTable_of_get edit.found edit.here

theorem Rewrite.fieldTable_self (edit : Rewrite s index ref fields fields' strings') :
    fieldTable (rewritten s ref fields' strings') index = some fields' :=
  fieldTable_of_get edit.found (Function.update_self ..)

theorem Rewrite.fieldTable_other (wf : WellFormed s)
    (edit : Rewrite s index ref fields fields' strings') (apart : other ≠ index) :
    fieldTable (rewritten s ref fields' strings') other = fieldTable s other := by
  refine fieldTable_congr rfl ?_
  intro ref' pointer
  have different : ref' ≠ ref := by
    rintro rfl
    exact apart (wf.separate other index ref' pointer edit.found)
  rw [rewritten_tables, Function.update_of_ne different]

theorem Rewrite.framed (wf : WellFormed s) (edit : Rewrite s index ref fields fields' strings') :
    Framed index s (rewritten s ref fields' strings') := by
  refine ⟨fun _ _ => rfl, fun other apart => edit.fieldTable_other wf apart, ?_⟩
  intro other table name str apart at_other holds
  apply edit.others str (wf.live other table name str at_other holds).1
  intro n shared
  exact apart (wf.owner other index table fields name n str at_other holds edit.own shared).1

/-- No string of another record is in the rewritten table. -/
theorem Rewrite.unshared (wf : WellFormed s) (edit : Rewrite s index ref fields fields' strings')
    (apart : other ≠ index) (at_other : fieldTable s other = some table)
    (holds : StringHashtable.get table name = some str) (n : CStr) :
    StringHashtable.get fields' n ≠ some str := by
  intro shared
  rcases edit.stored n str shared with ⟨rfl, _⟩ | ⟨before, _⟩
  · exact absurd (wf.live other table name _ at_other holds).1 (Nat.lt_irrefl _)
  · exact apart (wf.owner other index table fields name n str at_other holds edit.own before).1

theorem Rewrite.live (wf : WellFormed s) (edit : Rewrite s index ref fields fields' strings')
    (holds : StringHashtable.get fields' name = some str) :
    str < s.nextString + 1 ∧ ∃ value, strings' str = some value := by
  rcases edit.stored name str holds with ⟨rfl, fresh⟩ | ⟨before, same⟩
  · exact ⟨Nat.lt_succ_self _, fresh⟩
  · obtain ⟨below, value, live⟩ := wf.live index fields name str edit.own before
    exact ⟨Nat.lt_succ_of_lt below, value, same.trans live⟩

theorem Rewrite.distinct (wf : WellFormed s) (edit : Rewrite s index ref fields fields' strings')
    (n m : CStr) (holds_n : StringHashtable.get fields' n = some str)
    (holds_m : StringHashtable.get fields' m = some str) : n = m := by
  rcases edit.stored n str holds_n with ⟨rfl, _⟩ | ⟨before_n, _⟩
  · exact edit.once n m holds_n holds_m
  rcases edit.stored m str holds_m with ⟨rfl, _⟩ | ⟨before_m, _⟩
  · exact edit.once n m holds_n holds_m
  · exact (wf.owner index index fields fields n m str edit.own before_n edit.own before_m).2

theorem Rewrite.wellFormed (wf : WellFormed s)
    (edit : Rewrite s index ref fields fields' strings') :
    WellFormed (rewritten s ref fields' strings') := by
  refine ⟨?_, wf.separate, ?_, ?_⟩
  · intro other pointer at_other
    obtain ⟨below, table, allocated⟩ := wf.allocated other pointer at_other
    refine ⟨below, ?_⟩
    by_cases same : pointer = ref
    · exact ⟨fields', by rw [rewritten_tables, same, Function.update_self]⟩
    · exact ⟨table, by rw [rewritten_tables, Function.update_of_ne same, allocated]⟩
  · intro other table name str at_other holds
    by_cases same : other = index
    · subst other
      rw [edit.fieldTable_self, Option.some.injEq] at at_other
      subst table
      exact edit.live wf holds
    · rw [edit.fieldTable_other wf same] at at_other
      obtain ⟨below, value, live⟩ := wf.live other table name str at_other holds
      have kept := (edit.framed wf).strings other table name str same at_other holds
      exact ⟨Nat.lt_succ_of_lt below, value, kept.trans live⟩
  · intro i j table table' n m str at_i holds_i at_j holds_j
    by_cases same_i : i = index <;> by_cases same_j : j = index
    · subst i
      subst j
      rw [edit.fieldTable_self, Option.some.injEq] at at_i at_j
      subst table
      subst table'
      exact ⟨rfl, edit.distinct wf n m holds_i holds_j⟩
    · subst i
      rw [edit.fieldTable_self, Option.some.injEq] at at_i
      subst table
      rw [edit.fieldTable_other wf same_j] at at_j
      exact absurd holds_i (edit.unshared wf same_j at_j holds_j n)
    · subst j
      rw [edit.fieldTable_self, Option.some.injEq] at at_j
      subst table'
      rw [edit.fieldTable_other wf same_i] at at_i
      exact absurd holds_j (edit.unshared wf same_i at_i holds_i m)
    · rw [edit.fieldTable_other wf same_i] at at_i
      rw [edit.fieldTable_other wf same_j] at at_j
      exact wf.owner i j table table' n m str at_i holds_i at_j holds_j

theorem Rewrite.becomes (wf : WellFormed s) (edit : Rewrite s index ref fields fields' strings') :
    Becomes index s (rewritten s ref fields' strings')
      (some fun name => (StringHashtable.get fields' name).bind strings') :=
  ⟨edit.wellFormed wf, edit.framed wf, records_of_get edit.found (Function.update_self ..)⟩

end rewrite

section step

variable {s : HashtableDB H} {index : CStr} {ref : TableRef} {fields fields' : H StringRef}
  {strings' : StringRef → Option CStr} {name value : CStr}

/-- The new string is stored under a name; what was stored there is released. -/
structure Assigned (s : HashtableDB H) (fields : H StringRef) (name value : CStr)
    (fields' : H StringRef) (strings' : StringRef → Option CStr) : Prop where
  gets : ∀ q, StringHashtable.get fields' q =
    if q = name then some s.nextString else StringHashtable.get fields q
  fresh : strings' s.nextString = some value
  released : ∀ old, StringHashtable.get fields name = some old → strings' old = none
  kept : ∀ str, str ≠ s.nextString → StringHashtable.get fields name ≠ some str →
    strings' str = s.strings str

/-- The new string is not stored, and the table stands for what it did. -/
structure Discarded (s : HashtableDB H) (fields fields' : H StringRef)
    (strings' : StringRef → Option CStr) : Prop where
  gets : ∀ q, StringHashtable.get fields' q = StringHashtable.get fields q
  kept : ∀ str, str ≠ s.nextString → strings' str = s.strings str

/-- Another name of the table holds another string, from before the allocation. -/
theorem Assigned.older (wf : WellFormed s) (own : fieldTable s index = some fields)
    (assigned : Assigned s fields name value fields' strings') (q : CStr) (str : StringRef)
    (other : q ≠ name) (holds : StringHashtable.get fields q = some str) :
    strings' str = s.strings str := by
  apply assigned.kept str (Nat.ne_of_lt (wf.live index fields q str own holds).1)
  intro shared
  exact other (wf.owner index index fields fields q name str own holds own shared).2

theorem Assigned.rewrite (wf : WellFormed s)
    (found : StringHashtable.get s.keyTable index = some ref) (here : s.tables ref = some fields)
    (assigned : Assigned s fields name value fields' strings') :
    Rewrite s index ref fields fields' strings' := by
  have own := fieldTable_of_get found here
  have newest (q : CStr) (holds : StringHashtable.get fields' q = some s.nextString) :
      q = name := by
    by_contra other
    rw [assigned.gets, if_neg other] at holds
    exact absurd (wf.live index fields q _ own holds).1 (Nat.lt_irrefl _)
  refine ⟨found, here, ?_, ?_, ?_⟩
  · intro q str holds
    rw [assigned.gets] at holds
    split at holds
    · cases holds
      exact .inl ⟨rfl, value, assigned.fresh⟩
    next other => exact .inr ⟨holds, assigned.older wf own q str other holds⟩
  · intro n m holds_n holds_m
    rw [newest n holds_n, newest m holds_m]
  · intro str below unshared
    exact assigned.kept str (Nat.ne_of_lt below) (unshared name)

theorem Assigned.becomes (wf : WellFormed s)
    (found : StringHashtable.get s.keyTable index = some ref) (here : s.tables ref = some fields)
    (assigned : Assigned s fields name value fields' strings') :
    Becomes index s (rewritten s ref fields' strings')
      (some (Function.update (contents s fields) name (some value))) := by
  have record : (fun q => (StringHashtable.get fields' q).bind strings') =
      Function.update (contents s fields) name (some value) := by
    funext q
    rw [assigned.gets]
    by_cases same : q = name
    · subst q
      rw [if_pos rfl, Function.update_self]
      exact assigned.fresh
    · rw [if_neg same, Function.update_of_ne same, contents]
      cases stored : StringHashtable.get fields q with
      | none => rfl
      | some str => exact assigned.older wf (fieldTable_of_get found here) q str same stored
  exact record ▸ (assigned.rewrite wf found here).becomes wf

theorem Discarded.older (wf : WellFormed s) (own : fieldTable s index = some fields)
    (discarded : Discarded s fields fields' strings') (q : CStr) (str : StringRef)
    (holds : StringHashtable.get fields q = some str) : strings' str = s.strings str :=
  discarded.kept str (Nat.ne_of_lt (wf.live index fields q str own holds).1)

theorem Discarded.rewrite (wf : WellFormed s)
    (found : StringHashtable.get s.keyTable index = some ref) (here : s.tables ref = some fields)
    (discarded : Discarded s fields fields' strings') :
    Rewrite s index ref fields fields' strings' := by
  have own := fieldTable_of_get found here
  refine ⟨found, here, ?_, ?_, fun str below _ => discarded.kept str (Nat.ne_of_lt below)⟩
  · intro q str holds
    rw [discarded.gets] at holds
    exact .inr ⟨holds, discarded.older wf own q str holds⟩
  · intro n m holds_n _
    rw [discarded.gets] at holds_n
    exact absurd (wf.live index fields n _ own holds_n).1 (Nat.lt_irrefl _)

theorem Discarded.becomes (wf : WellFormed s)
    (found : StringHashtable.get s.keyTable index = some ref) (here : s.tables ref = some fields)
    (discarded : Discarded s fields fields' strings') :
    Becomes index s (rewritten s ref fields' strings') (some (contents s fields)) := by
  have record : (fun q => (StringHashtable.get fields' q).bind strings') = contents s fields := by
    funext q
    rw [discarded.gets, contents]
    cases stored : StringHashtable.get fields q with
    | none => rfl
    | some str => exact discarded.older wf (fieldTable_of_get found here) q str stored
  exact record ▸ (discarded.rewrite wf found here).becomes wf

end step

/-- The pairs of a write, as C strings. -/
def fieldPairs (values : List KVPair) : List (CStr × CStr) :=
  values.map fun fieldPair => (cStr fieldPair.1, cStr fieldPair.2)

section loops

variable [LawfulStringHashtable H] {s : HashtableDB H} {index : CStr} {ref : TableRef}
  {fields : H StringRef}

/-- A copied value, inserted under a name that is free. -/
theorem insert_assigned (name value : CStr) (absent : StringHashtable.get fields name = none) :
    Assigned s fields name value (StringHashtable.insert fields name s.nextString).2
      (Function.update s.strings s.nextString (some value)) where
  gets q := by rw [LawfulStringHashtable.get_insert, absent, Option.getD_none]
  fresh := Function.update_self ..
  released old present := by
    rw [absent] at present
    cases present
  kept str other _ := Function.update_of_ne other ..

/-- Under a name that is taken, the insert stores nothing. -/
theorem insert_discarded (name : CStr) (strings' : StringRef → Option CStr)
    (present : (StringHashtable.get fields name).isSome)
    (kept : ∀ str, str ≠ s.nextString → strings' str = s.strings str) :
    Discarded s fields (StringHashtable.insert fields name s.nextString).2 strings' where
  gets q := by
    obtain ⟨old, held⟩ := Option.isSome_iff_exists.mp present
    rw [LawfulStringHashtable.get_insert, held, Option.getD_some]
    split
    next same => rw [same, held]
    · rfl
  kept := kept

/-- A copied value, inserted under a name that may be taken. -/
theorem WellFormed.insert_step (wf : WellFormed s)
    (found : StringHashtable.get s.keyTable index = some ref) (here : s.tables ref = some fields)
    (name value : CStr) :
    Becomes index s (rewritten s ref (StringHashtable.insert fields name s.nextString).2
        (Function.update s.strings s.nextString (some value)))
      (some (if (contents s fields name).isSome then contents s fields
        else Function.update (contents s fields) name (some value))) := by
  rw [contents_isSome wf (fieldTable_of_get found here)]
  cases stored : StringHashtable.get fields name with
  | none => exact (insert_assigned name value stored).becomes wf found here
  | some old =>
    have present : (StringHashtable.get fields name).isSome := by rw [stored, Option.isSome_some]
    exact (insert_discarded name _ present fun str other => Function.update_of_ne other ..).becomes
      wf found here

/-- The new record of `Update`: the first pair of a name is kept. -/
theorem updateNew_spec (values : List KVPair) (record : Record) (wf : WellFormed s)
    (found : StringHashtable.get s.keyTable index = some ref)
    (before : records s index = some record) :
    ∃ s', s.updateNew ref values = some s' ∧
      Becomes index s s' (some (PartialMap.addMissing record (fieldPairs values))) := by
  induction values generalizing s record with
  | nil => exact ⟨s, rfl, wf, .refl index s, before⟩
  | cons fieldPair rest ih =>
    obtain ⟨_, fields, here⟩ := wf.allocated index ref found
    rw [records_of_get found here, Option.some.injEq] at before
    have step := wf.insert_step found here (cStr fieldPair.1) (cStr fieldPair.2)
    rw [before] at step
    obtain ⟨s', ran, becomes⟩ := ih _ step.wellFormed found step.record
    refine ⟨s', ?_, step.trans becomes⟩
    rw [updateNew]
    simp only [copyString, here]
    exact ran

/-- A round for a name that is free: the update finds nothing, and the insert that
follows it stores the copy. -/
theorem updateExisting_absent (fieldPair : KVPair) (here : s.tables ref = some fields)
    (absent : StringHashtable.get fields (cStr fieldPair.1) = none) :
    ∃ fields₁ strings₁,
      Assigned s fields (cStr fieldPair.1) (cStr fieldPair.2) fields₁ strings₁ ∧
      ∀ rest, s.updateExisting ref (fieldPair :: rest) =
        (rewritten s ref fields₁ strings₁).updateExisting ref rest := by
  have result := LawfulStringHashtable.update_result fields (cStr fieldPair.1) s.nextString
  have gets := fun q => LawfulStringHashtable.get_update fields (cStr fieldPair.1) q s.nextString
  cases updated : StringHashtable.update fields (cStr fieldPair.1) s.nextString with
  | mk replaced fields₁ =>
    rw [updated, absent] at result gets
    cases result
    have untouched (q : CStr) : StringHashtable.get fields₁ q = StringHashtable.get fields q := by
      rw [gets]
      split
      next same => rw [same, absent, Option.map_none]
      · rfl
    refine ⟨(StringHashtable.insert fields₁ (cStr fieldPair.1) s.nextString).2,
      Function.update s.strings s.nextString (some (cStr fieldPair.2)),
      ⟨?_, Function.update_self .., ?_, fun str other _ => Function.update_of_ne other ..⟩, ?_⟩
    · intro q
      rw [LawfulStringHashtable.get_insert, untouched, untouched, absent, Option.getD_none]
    · intro old present
      rw [absent] at present
      cases present
    · intro rest
      rw [updateExisting]
      simp only [copyString, here, updated]
      rfl

/-- A round for a name that is taken: the update stores the copy, and the old string
is released. -/
theorem updateExisting_present (fieldPair : KVPair) (wf : WellFormed s)
    (found : StringHashtable.get s.keyTable index = some ref) (here : s.tables ref = some fields)
    {old : StringRef} (stored : StringHashtable.get fields (cStr fieldPair.1) = some old) :
    ∃ fields₁ strings₁,
      Assigned s fields (cStr fieldPair.1) (cStr fieldPair.2) fields₁ strings₁ ∧
      ∀ rest, s.updateExisting ref (fieldPair :: rest) =
        (rewritten s ref fields₁ strings₁).updateExisting ref rest := by
  have result := LawfulStringHashtable.update_result fields (cStr fieldPair.1) s.nextString
  have gets := fun q => LawfulStringHashtable.get_update fields (cStr fieldPair.1) q s.nextString
  have copied (str : StringRef) (older : str ≠ s.nextString) :
      Function.update s.strings s.nextString (some (cStr fieldPair.2)) str = s.strings str :=
    Function.update_of_ne older ..
  obtain ⟨below, value, live⟩ :=
    wf.live index fields (cStr fieldPair.1) old (fieldTable_of_get found here) stored
  cases updated : StringHashtable.update fields (cStr fieldPair.1) s.nextString with
  | mk replaced fields₁ =>
    rw [updated, stored] at result gets
    cases result
    refine ⟨fields₁, Function.update
      (Function.update s.strings s.nextString (some (cStr fieldPair.2))) old none,
      ⟨gets, ?_, ?_, ?_⟩, ?_⟩
    · rw [Function.update_of_ne (Nat.ne_of_gt below), Function.update_self]
    · intro older present
      rw [stored, Option.some.injEq] at present
      rw [present, Function.update_self]
    · intro str newer other
      have different : str ≠ old := fun same => other (by rw [stored, same])
      rw [Function.update_of_ne different, copied str newer]
    · intro rest
      have released := deleteString_live (s := (copyString s fieldPair.2).2.setTable ref fields₁)
        ((copied old (Nat.ne_of_lt below)).trans live)
      rw [updateExisting]
      simp only [copyString] at released
      simp only [copyString, here, updated, released]
      rfl

/-- One round of the loop of `Update` on an existing record: the copy is stored,
by the update or by the insert that follows it, and an old string is released. -/
theorem updateExisting_round (fieldPair : KVPair) (wf : WellFormed s)
    (found : StringHashtable.get s.keyTable index = some ref) (here : s.tables ref = some fields) :
    ∃ fields₁ strings₁,
      Assigned s fields (cStr fieldPair.1) (cStr fieldPair.2) fields₁ strings₁ ∧
      ∀ rest, s.updateExisting ref (fieldPair :: rest) =
        (rewritten s ref fields₁ strings₁).updateExisting ref rest := by
  cases stored : StringHashtable.get fields (cStr fieldPair.1) with
  | none => exact updateExisting_absent fieldPair here stored
  | some old => exact updateExisting_present fieldPair wf found here stored

/-- The existing record of `Update`: each pair overwrites. -/
theorem updateExisting_spec (values : List KVPair) (record : Record) (wf : WellFormed s)
    (found : StringHashtable.get s.keyTable index = some ref)
    (before : records s index = some record) :
    ∃ s', s.updateExisting ref values = some s' ∧
      Becomes index s s' (some (PartialMap.overwrite record (fieldPairs values))) := by
  induction values generalizing s record with
  | nil => exact ⟨s, rfl, wf, .refl index s, before⟩
  | cons fieldPair rest ih =>
    obtain ⟨_, fields, here⟩ := wf.allocated index ref found
    rw [records_of_get found here, Option.some.injEq] at before
    subst before
    obtain ⟨fields₁, strings₁, assigned, round⟩ := updateExisting_round fieldPair wf found here
    have step := assigned.becomes wf found here
    obtain ⟨s', ran, becomes⟩ := ih _ step.wellFormed found step.record
    exact ⟨s', (round rest).trans ran, step.trans becomes⟩

/-- The loop of `Insert`: pairs are added up to the first that is there. -/
theorem insertFields_spec (values : List KVPair) (record : Record) (wf : WellFormed s)
    (found : StringHashtable.get s.keyTable index = some ref)
    (before : records s index = some record) :
    ∃ s', s.insertFields ref values = some (s',
        if (PartialMap.addUntilPresent record (fieldPairs values)).1 then .kOK
        else .kErrorConflict) ∧
      Becomes index s s' (some (PartialMap.addUntilPresent record (fieldPairs values)).2) := by
  induction values generalizing s record with
  | nil => exact ⟨s, rfl, wf, .refl index s, before⟩
  | cons fieldPair rest ih =>
    obtain ⟨_, fields, here⟩ := wf.allocated index ref found
    have present := contents_isSome wf (fieldTable_of_get found here) (cStr fieldPair.1)
    rw [records_of_get found here, Option.some.injEq] at before
    have ok := LawfulStringHashtable.insert_result fields (cStr fieldPair.1) s.nextString
    rw [fieldPairs, List.map_cons, PartialMap.addUntilPresent, ← before, insertFields]
    simp only [copyString, here, ok]
    cases stored : StringHashtable.get fields (cStr fieldPair.1) with
    | none =>
      have step := wf.insert_step found here (cStr fieldPair.1) (cStr fieldPair.2)
      rw [present, stored] at step
      obtain ⟨s', ran, becomes⟩ := ih _ step.wellFormed found step.record
      rw [present, stored]
      exact ⟨s', ran, step.trans becomes⟩
    | some old =>
      -- The copy is released again.
      rw [present, stored]
      have step := (insert_discarded (cStr fieldPair.1) (Function.update
          (Function.update s.strings s.nextString (some (cStr fieldPair.2))) s.nextString none)
        (by rw [stored, Option.isSome_some]) (by
          intro str other
          rw [Function.update_of_ne other, Function.update_of_ne other])).becomes wf found here
      have released := deleteString_live (s := (copyString s fieldPair.2).2.setTable ref
        (StringHashtable.insert fields (cStr fieldPair.1) s.nextString).2) (Function.update_self ..)
      simp only [copyString] at released
      refine ⟨_, ?_, step⟩
      simp only [released]
      rfl

end loops

section operations

variable [LawfulStringHashtable H] {s : HashtableDB H}

theorem wellFormed_empty : WellFormed (empty : HashtableDB H) := by
  have absent (index : CStr) : StringHashtable.get (empty : HashtableDB H).keyTable index = none :=
    LawfulStringHashtable.get_new index
  have unallocated (index : CStr) : fieldTable (empty : HashtableDB H) index = none := by
    rw [fieldTable, absent, Option.bind_none]
  refine ⟨?_, ?_, ?_, ?_⟩
  · intro index ref found
    rw [absent] at found
    cases found
  · intro i j ref found
    rw [absent] at found
    cases found
  · intro index fields name str own
    rw [unallocated] at own
    cases own
  · intro i j fields fields' n m str own
    rw [unallocated] at own
    cases own

/-- The state after `Update` and `Insert` have put a new field table under an
absent key. -/
def created (s : HashtableDB H) (index : CStr) : HashtableDB H :=
  { s.newFieldHashtable.2 with
    keyTable := (StringHashtable.insert s.keyTable index s.nextTable).2 }

theorem created_get {index : CStr} (absent : StringHashtable.get s.keyTable index = none)
    (q : CStr) : StringHashtable.get (created s index).keyTable q =
      if q = index then some s.nextTable else StringHashtable.get s.keyTable q := by
  rw [created, LawfulStringHashtable.get_insert, absent, Option.getD_none]

theorem created_fieldTable {index : CStr}
    (absent : StringHashtable.get s.keyTable index = none) :
    fieldTable (created s index) index = some StringHashtable.new := by
  rw [fieldTable, created_get absent, if_pos rfl, Option.bind_some]
  exact Function.update_self ..

theorem WellFormed.create (wf : WellFormed s) (index : CStr)
    (absent : StringHashtable.get s.keyTable index = none) :
    Becomes index s (created s index) (some fun _ => none) ∧
      StringHashtable.get (created s index).keyTable index = some s.nextTable := by
  have gets := created_get absent
  have own := created_fieldTable absent
  have rest (other : CStr) (apart : other ≠ index) :
      fieldTable (created s index) other = fieldTable s other := by
    refine fieldTable_congr (by rw [gets, if_neg apart]) ?_
    intro ref pointer
    exact Function.update_of_ne (Nat.ne_of_lt (wf.allocated other ref pointer).1) ..
  -- Every string that is held is held by a record from before.
  have before (other : CStr) (fields : H StringRef) (name : CStr) (str : StringRef)
      (at_other : fieldTable (created s index) other = some fields)
      (holds : StringHashtable.get fields name = some str) : fieldTable s other = some fields := by
    by_cases same : other = index
    · subst other
      rw [own, Option.some.injEq] at at_other
      subst fields
      rw [LawfulStringHashtable.get_new] at holds
      cases holds
    · rw [← rest other same, at_other]
  refine ⟨⟨⟨?_, ?_, ?_, ?_⟩, ⟨?_, rest, fun _ _ _ _ _ _ _ => rfl⟩, ?_⟩, by rw [gets, if_pos rfl]⟩
  · intro other ref pointer
    rw [gets] at pointer
    split at pointer
    · cases pointer
      exact ⟨Nat.lt_succ_self _, _, Function.update_self ..⟩
    · obtain ⟨below, fields, allocated⟩ := wf.allocated other ref pointer
      refine ⟨Nat.lt_succ_of_lt below, fields, ?_⟩
      exact (Function.update_of_ne (Nat.ne_of_lt below) ..).trans allocated
  · intro i j ref pointer_i pointer_j
    rw [gets] at pointer_i pointer_j
    split at pointer_i <;> split at pointer_j
    next first second => rw [first, second]
    next first second =>
      cases pointer_i
      exact absurd (wf.allocated j _ pointer_j).1 (Nat.lt_irrefl _)
    next first second =>
      cases pointer_j
      exact absurd (wf.allocated i _ pointer_i).1 (Nat.lt_irrefl _)
    · exact wf.separate i j ref pointer_i pointer_j
  · intro other fields name str at_other holds
    exact wf.live other fields name str (before other fields name str at_other holds) holds
  · intro i j fields fields' n m str at_i holds_i at_j holds_j
    exact wf.owner i j fields fields' n m str (before i fields n str at_i holds_i) holds_i
      (before j fields' m str at_j holds_j) holds_j
  · intro other apart
    rw [gets, if_neg apart]
  · rw [records, own, Option.map_some]
    congr 1
    funext name
    rw [contents, LawfulStringHashtable.get_new, Option.bind_none]

/-- What `Update` makes of a record: a new one keeps the first pair of each name,
an existing one takes the last. -/
def updated (before : Option Record) (pairs : List (CStr × CStr)) : Record :=
  match before with
  | none => PartialMap.addMissing (fun _ => none) pairs
  | some record => PartialMap.overwrite record pairs

theorem update_spec (wf : WellFormed s) (table key : Bytes) (values : List KVPair) :
    ∃ s', s.update table key values = some (s', .kOK) ∧ Becomes (keyIndex table key) s s'
      (some (updated (records s (keyIndex table key)) (fieldPairs values))) := by
  unfold update
  cases found : StringHashtable.get s.keyTable (keyIndex table key) with
  | none =>
    rw [(records_eq_none_iff wf _).mpr found]
    obtain ⟨create, pointer⟩ := wf.create (keyIndex table key) found
    obtain ⟨s', ran, becomes⟩ := updateNew_spec values _ create.wellFormed pointer create.record
    refine ⟨s', ?_, create.trans becomes⟩
    simp only [created, newFieldHashtable] at ran
    simp only [newFieldHashtable, ran, Option.map_some]
  | some ref =>
    obtain ⟨_, fields, here⟩ := wf.allocated _ ref found
    rw [records_of_get found here]
    obtain ⟨s', ran, becomes⟩ := updateExisting_spec values _ wf found (records_of_get found here)
    exact ⟨s', by simp only [ran, Option.map_some], becomes⟩

theorem insert_spec (wf : WellFormed s) (table key : Bytes) (values : List KVPair) :
    ∃ s', s.insert table key values = some (s',
        if (PartialMap.addUntilPresent ((records s (keyIndex table key)).getD fun _ => none)
          (fieldPairs values)).1 then .kOK else .kErrorConflict) ∧
      Becomes (keyIndex table key) s s' (some (PartialMap.addUntilPresent
        ((records s (keyIndex table key)).getD fun _ => none) (fieldPairs values)).2) := by
  unfold HashtableDB.insert
  cases found : StringHashtable.get s.keyTable (keyIndex table key) with
  | none =>
    rw [(records_eq_none_iff wf _).mpr found]
    obtain ⟨create, pointer⟩ := wf.create (keyIndex table key) found
    obtain ⟨s', ran, becomes⟩ := insertFields_spec values _ create.wellFormed pointer create.record
    exact ⟨s', ran, create.trans becomes⟩
  | some ref =>
    obtain ⟨_, fields, here⟩ := wf.allocated _ ref found
    rw [records_of_get found here]
    exact insertFields_spec values _ wf found (records_of_get found here)

omit [LawfulStringHashtable H] in
/-- A record is taken out of the key table; the tables and strings of the others stay. -/
theorem WellFormed.withdraw {s' : HashtableDB H} (wf : WellFormed s) (index : CStr)
    (gets : ∀ q, StringHashtable.get s'.keyTable q =
      if q = index then none else StringHashtable.get s.keyTable q)
    (nextTable : s'.nextTable = s.nextTable) (nextString : s'.nextString = s.nextString)
    (tables : ∀ other ref, other ≠ index → StringHashtable.get s.keyTable other = some ref →
      s'.tables ref = s.tables ref)
    (strings : ∀ other fields name str, other ≠ index → fieldTable s other = some fields →
      StringHashtable.get fields name = some str → s'.strings str = s.strings str) :
    Becomes index s s' none := by
  have gone : fieldTable s' index = none := by rw [fieldTable, gets, if_pos rfl, Option.bind_none]
  have rest (other : CStr) (apart : other ≠ index) : fieldTable s' other = fieldTable s other :=
    fieldTable_congr (by rw [gets, if_neg apart]) fun ref => tables other ref apart
  have kept (other : CStr) (fields : H StringRef) (at_other : fieldTable s' other = some fields) :
      other ≠ index ∧ fieldTable s other = some fields := by
    have apart : other ≠ index := by
      rintro rfl
      rw [gone] at at_other
      cases at_other
    exact ⟨apart, by rw [← rest other apart, at_other]⟩
  refine ⟨⟨?_, ?_, ?_, ?_⟩, ⟨fun other apart => by rw [gets, if_neg apart], rest, strings⟩, ?_⟩
  · intro other ref pointer
    rw [gets] at pointer
    split at pointer
    · cases pointer
    next apart =>
      obtain ⟨below, fields, allocated⟩ := wf.allocated other ref pointer
      exact ⟨nextTable ▸ below, fields, (tables other ref apart pointer).trans allocated⟩
  · intro i j ref pointer_i pointer_j
    rw [gets] at pointer_i pointer_j
    split at pointer_i
    · cases pointer_i
    · split at pointer_j
      · cases pointer_j
      · exact wf.separate i j ref pointer_i pointer_j
  · intro other fields name str at_other holds
    obtain ⟨apart, before⟩ := kept other fields at_other
    obtain ⟨below, value, live⟩ := wf.live other fields name str before holds
    exact ⟨nextString ▸ below, value, (strings other fields name str apart before holds).trans live⟩
  · intro i j fields fields' n m str at_i holds_i at_j holds_j
    exact wf.owner i j fields fields' n m str (kept i fields at_i).2 holds_i
      (kept j fields' at_j).2 holds_j
  · rw [records, gone, Option.map_none]

omit [StringHashtable H] [LawfulStringHashtable H] in
/-- Distinct live strings can be released one after the other. -/
theorem deleteStrings_spec (s : HashtableDB H) (strs : List StringRef) (distinct : strs.Nodup)
    (live : ∀ str ∈ strs, ∃ value, s.strings str = some value) :
    s.deleteStrings strs =
      some { s with strings := fun str => if str ∈ strs then none else s.strings str } := by
  induction strs generalizing s with
  | nil => simp [deleteStrings]
  | cons head rest ih =>
    rw [List.nodup_cons] at distinct
    obtain ⟨value, held⟩ := live head (by simp)
    have later : ∀ str ∈ rest,
        ∃ value, Function.update s.strings head none str = some value := by
      intro str member
      have other : str ≠ head := fun same => distinct.1 (same ▸ member)
      rw [Function.update_of_ne other]
      exact live str (by simp [member])
    have released := ih { s with strings := Function.update s.strings head none } distinct.2 later
    rw [deleteStrings, deleteString, held]
    simp only
    rw [released]
    simp only [Option.some.injEq, HashtableDB.mk.injEq, true_and, and_true]
    funext str
    by_cases same : str = head
    · subst str
      simp
    · simp [same]

/-- The strings that a live field table lists are distinct and live. -/
theorem listed_strings (wf : WellFormed s) {index : CStr} {fields : H StringRef}
    (own : fieldTable s index = some fields) (key : Option CStr) (n : Nat) :
    ((StringHashtable.entries fields key n).map Prod.snd).Nodup ∧
      ∀ str ∈ (StringHashtable.entries fields key n).map Prod.snd,
        ∃ name value, StringHashtable.get fields name = some str ∧ s.strings str = some value := by
  have sound := LawfulStringHashtable.entries_sound fields key n
  have names := LawfulStringHashtable.entries_nodup fields key n
  constructor
  · refine List.Nodup.map_on ?_ (List.Nodup.of_map Prod.fst names)
    intro first member second member' same
    have shared : StringHashtable.get fields second.1 = some first.2 := same ▸ sound second member'
    have name := (wf.owner index index fields fields first.1 second.1 first.2 own
      (sound first member) own shared).2
    exact Prod.ext name same
  · intro str member
    obtain ⟨entry, listed, rfl⟩ := List.mem_map.mp member
    obtain ⟨_, value, live⟩ := wf.live index fields entry.1 entry.2 own (sound entry listed)
    exact ⟨entry.1, value, sound entry listed, live⟩

/-- Deleting a record takes it out of the key table and releases its strings and
its field table. -/
theorem delete_present (wf : WellFormed s) {table key : Bytes} {ref : TableRef}
    {fields : H StringRef}
    (found : StringHashtable.get s.keyTable (keyIndex table key) = some ref)
    (here : s.tables ref = some fields) :
    s.delete table key = some ({ s with
      keyTable := (StringHashtable.remove s.keyTable (keyIndex table key)).2
      tables := Function.update s.tables ref none
      strings := fun str =>
        if str ∈ (StringHashtable.entries fields none allEntries).map Prod.snd then none
        else s.strings str }, .kOK) := by
  have result := LawfulStringHashtable.remove_result s.keyTable (keyIndex table key)
  obtain ⟨distinct, listed⟩ := listed_strings wf (fieldTable_of_get found here) none allEntries
  unfold delete
  cases removed : StringHashtable.remove s.keyTable (keyIndex table key) with
  | mk pointer keyTable =>
    rw [removed, found] at result
    cases result
    have released := deleteStrings_spec { s with keyTable := keyTable } _ distinct
      fun str member => by
        obtain ⟨_, value, _, live⟩ := listed str member
        exact ⟨value, live⟩
    simp only [deleteFieldHashtable, here, released, Option.map_some]

theorem delete_absent {table key : Bytes}
    (absent : StringHashtable.get s.keyTable (keyIndex table key) = none) :
    s.delete table key = some ({ s with
      keyTable := (StringHashtable.remove s.keyTable (keyIndex table key)).2 }, .kErrorNoData) := by
  have result := LawfulStringHashtable.remove_result s.keyTable (keyIndex table key)
  unfold delete
  cases removed : StringHashtable.remove s.keyTable (keyIndex table key) with
  | mk pointer keyTable =>
    rw [removed, absent] at result
    cases result
    rfl

theorem delete_spec (wf : WellFormed s) (table key : Bytes) :
    ∃ s', s.delete table key = some (s', if (records s (keyIndex table key)).isNone
        then .kErrorNoData else .kOK) ∧
      Becomes (keyIndex table key) s s' none := by
  have gets := LawfulStringHashtable.get_remove s.keyTable (keyIndex table key)
  cases found : StringHashtable.get s.keyTable (keyIndex table key) with
  | none =>
    rw [(records_eq_none_iff wf _).mpr found, delete_absent found]
    exact ⟨_, rfl, wf.withdraw _ gets rfl rfl (fun _ _ _ _ => rfl) fun _ _ _ _ _ _ _ => rfl⟩
  | some ref =>
    obtain ⟨_, fields, here⟩ := wf.allocated _ ref found
    have own := fieldTable_of_get found here
    obtain ⟨_, listed⟩ := listed_strings wf own none allEntries
    rw [records_of_get found here, delete_present wf found here]
    refine ⟨_, rfl, wf.withdraw _ gets rfl rfl ?_ ?_⟩
    · intro other ref' apart pointer
      apply Function.update_of_ne
      rintro rfl
      exact apart (wf.separate other _ ref' pointer found)
    · intro other fields' name str apart at_other holds
      apply if_neg
      intro member
      obtain ⟨shared, _, stored, _⟩ := listed str member
      exact apart (wf.owner other _ fields' fields name shared str at_other holds own stored).1

end operations

end YcsbCloud.Guarantees.HashtableOwnership
