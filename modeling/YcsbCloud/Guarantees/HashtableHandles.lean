import YcsbCloud.Guarantees.RecordIsolation

/-!
# The value strings of `HashtableDB` and their owners

A string that has been created and not released is live; one in a field table
that the key table reaches is stored. What is stored is live and stored once, in
every state. What is live is stored until an `Update` gives a new record the same
name twice: the second copy is then referred to by nothing, and stays so.
-/
namespace YcsbCloud.Guarantees.HashtableHandles
open Library Source Source.HashtableDB HashtableOwnership RecordIsolation

variable {H : Type → Type} [StringHashtable H] {s s' s'' : HashtableDB H}

/-- Created and not released. -/
def Live (s : HashtableDB H) (str : StringRef) : Prop := ∃ value, s.strings str = some value

/-- In a field table that the key table reaches. -/
def Stored (s : HashtableDB H) (str : StringRef) : Prop :=
  ∃ index fields name, fieldTable s index = some fields ∧
    StringHashtable.get fields name = some str

/-- No string is in two places. -/
def StoredOnce (s : HashtableDB H) : Prop :=
  ∀ i j fields fields' n m str, fieldTable s i = some fields →
    StringHashtable.get fields n = some str → fieldTable s j = some fields' →
    StringHashtable.get fields' m = some str → i = j ∧ n = m

/-- The live strings are those stored, each in one place. -/
structure OneOwner (s : HashtableDB H) : Prop where
  live_iff_stored : ∀ str, Live s str ↔ Stored s str
  once : StoredOnce s

def Leaked (s : HashtableDB H) (str : StringRef) : Prop := Live s str ∧ ¬ Stored s str

/-- References that `CopyString` has not returned yet are not live. -/
def Fresh (s : HashtableDB H) : Prop := ∀ str, s.nextString ≤ str → s.strings str = none

theorem Leaked.below (fresh : Fresh s) {str : StringRef} (leaked : Leaked s str) :
    str < s.nextString := by
  by_contra above
  obtain ⟨⟨value, live⟩, _⟩ := leaked
  rw [fresh str (Nat.le_of_not_lt above)] at live
  cases live

theorem live_of_stored (wf : WellFormed s) (str : StringRef) (stored : Stored s str) :
    Live s str := by
  obtain ⟨index, fields, name, own, holds⟩ := stored
  exact (wf.live index fields name str own holds).2

theorem oneOwner_iff (wf : WellFormed s) : OneOwner s ↔ ∀ str, ¬ Leaked s str := by
  constructor
  · intro owned str ⟨live, unstored⟩
    exact unstored ((owned.live_iff_stored str).mp live)
  · intro kept
    refine ⟨fun str => ⟨?_, live_of_stored wf str⟩, wf.owner⟩
    intro live
    by_contra unstored
    exact kept str ⟨live, unstored⟩

/-- What was leaked before a step is leaked after it, and the step leaks nothing
exactly under the condition. -/
structure Ledger (s s' : HashtableDB H) (cond : Prop) : Prop where
  fresh : Fresh s'
  persists : ∀ str, Leaked s str → Leaked s' str
  exact_iff : (∀ str, Leaked s' str → Leaked s str) ↔ cond

theorem Ledger.refl (fresh : Fresh s) : Ledger s s True :=
  ⟨fresh, fun _ leaked => leaked, by simp⟩

theorem Ledger.trans {first second : Prop} (left : Ledger s s' first)
    (right : Ledger s' s'' second) : Ledger s s'' (first ∧ second) := by
  refine ⟨right.fresh, fun str leaked => right.persists str (left.persists str leaked), ?_⟩
  rw [← left.exact_iff, ← right.exact_iff]
  constructor
  · intro none_new
    exact ⟨fun str leaked => none_new str (right.persists str leaked),
      fun str leaked => left.persists str (none_new str leaked)⟩
  · intro ⟨none_left, none_right⟩ str leaked
    exact none_left str (none_right str leaked)

theorem Ledger.congr {first second : Prop} (ledger : Ledger s s' first)
    (same : first ↔ second) : Ledger s s' second :=
  ⟨ledger.fresh, ledger.persists, ledger.exact_iff.trans same⟩

theorem Ledger.then {cond : Prop} (balanced : Ledger s s' True) (later : Ledger s' s'' cond) :
    Ledger s s'' cond :=
  (balanced.trans later).congr ⟨fun both => both.2, fun holds => ⟨trivial, holds⟩⟩

/-- Where the leaked strings are the same, the ledger balances. -/
theorem Ledger.of_same (fresh : Fresh s') (same : ∀ str, Leaked s' str ↔ Leaked s str) :
    Ledger s s' True :=
  ⟨fresh, fun str => (same str).mpr, by simp [same]⟩

/-- In the field table of another record. -/
def StoredElsewhere (s : HashtableDB H) (index : CStr) (str : StringRef) : Prop :=
  ∃ other table n, other ≠ index ∧ fieldTable s other = some table ∧
    StringHashtable.get table n = some str

theorem framed_stored_iff {index : CStr} (framed : Framed index s s') (str : StringRef) :
    Stored s' str ↔ (∃ fields n, fieldTable s' index = some fields ∧
      StringHashtable.get fields n = some str) ∨ StoredElsewhere s index str := by
  constructor
  · intro ⟨other, table, n, own, holds⟩
    by_cases same : other = index
    · subst other
      exact .inl ⟨table, n, own, holds⟩
    · rw [framed.tables other same] at own
      exact .inr ⟨other, table, n, same, own, holds⟩
  · rintro (⟨fields, n, own, holds⟩ | ⟨other, table, n, apart, own, holds⟩)
    · exact ⟨index, fields, n, own, holds⟩
    · exact ⟨other, table, n, (framed.tables other apart).trans own, holds⟩

/-- A record stores what its field table holds. -/
theorem framed_stored_own {index : CStr} {fields : H StringRef} (framed : Framed index s s')
    (own : fieldTable s' index = some fields) (str : StringRef) :
    Stored s' str ↔
      (∃ n, StringHashtable.get fields n = some str) ∨ StoredElsewhere s index str := by
  rw [framed_stored_iff framed]
  refine or_congr_left ⟨?_, ?_⟩
  · intro stored
    obtain ⟨table, n, here, holds⟩ := stored
    rw [own, Option.some.injEq] at here
    exact ⟨n, here ▸ holds⟩
  · intro held
    obtain ⟨n, holds⟩ := held
    exact ⟨fields, n, own, holds⟩

/-- A record without a field table stores nothing. -/
theorem framed_stored_absent {index : CStr} (framed : Framed index s s')
    (gone : fieldTable s' index = none) (str : StringRef) :
    Stored s' str ↔ StoredElsewhere s index str := by
  rw [framed_stored_iff framed]
  refine or_iff_right ?_
  intro stored
  obtain ⟨fields, n, own, _⟩ := stored
  rw [gone] at own
  cases own

theorem fieldTable_absent {index : CStr}
    (absent : StringHashtable.get s.keyTable index = none) : fieldTable s index = none := by
  rw [fieldTable, absent, Option.bind_none]

/-- Taking a record out leaks nothing when exactly its strings are released. -/
theorem removed_ledger (fresh : Fresh s) {index : CStr} {fields : H StringRef}
    (own : fieldTable s index = some fields) (framed : Framed index s s')
    (gone : fieldTable s' index = none) (nextString : s'.nextString = s.nextString)
    (released : ∀ n str, StringHashtable.get fields n = some str → s'.strings str = none)
    (kept : ∀ str, (¬ ∃ n, StringHashtable.get fields n = some str) →
      s'.strings str = s.strings str) : Ledger s s' True := by
  apply Ledger.of_same
  · intro str above
    by_cases held : ∃ n, StringHashtable.get fields n = some str
    · obtain ⟨n, holds⟩ := held
      exact released n str holds
    · exact (kept str held).trans (fresh str (nextString ▸ above))
  · intro str
    unfold Leaked Live
    rw [framed_stored_absent framed gone, framed_stored_own (.refl index s) own]
    by_cases held : ∃ n, StringHashtable.get fields n = some str
    · obtain ⟨n, holds⟩ := held
      rw [released n str holds]
      constructor
      · intro leaked
        obtain ⟨⟨value, impossible⟩, _⟩ := leaked
        cases impossible
      · intro leaked
        exact absurd (.inl ⟨n, holds⟩) leaked.2
    · rw [kept str held, or_iff_right held]

section rewrite

variable {index name value : CStr} {ref : TableRef} {fields fields' : H StringRef}
  {strings' : StringRef → Option CStr}

theorem rewrite_stored_iff (wf : WellFormed s)
    (edit : Rewrite s index ref fields fields' strings') (str : StringRef) :
    Stored (rewritten s ref fields' strings') str ↔
      (∃ n, StringHashtable.get fields' n = some str) ∨ StoredElsewhere s index str :=
  framed_stored_own (edit.framed wf) edit.fieldTable_self str

/-- A string from before the rewriting is leaked after it exactly when it was
before, provided that those taken out of the table are released. -/
theorem rewrite_leaked_older (wf : WellFormed s)
    (edit : Rewrite s index ref fields fields' strings') (str : StringRef)
    (older : str < s.nextString)
    (released : ∀ n, StringHashtable.get fields n = some str →
      (∃ m, StringHashtable.get fields' m = some str) ∨ strings' str = none) :
    Leaked (rewritten s ref fields' strings') str ↔ Leaked s str := by
  by_cases held : ∃ n, StringHashtable.get fields n = some str
  · obtain ⟨n, holds⟩ := held
    constructor
    · intro ⟨⟨value, live⟩, unstored⟩
      rcases released n holds with still | gone
      · exact absurd ((rewrite_stored_iff wf edit str).mpr (.inl still)) unstored
      · rw [rewritten_strings, gone] at live
        cases live
    · intro ⟨_, unstored⟩
      exact absurd ⟨index, fields, n, edit.own, holds⟩ unstored
  · have unchanged : strings' str = s.strings str :=
      edit.others str older fun n holds => held ⟨n, holds⟩
    have same : Stored (rewritten s ref fields' strings') str ↔ Stored s str := by
      rw [rewrite_stored_iff wf edit str]
      constructor
      · rintro (⟨n, holds⟩ | ⟨other, table, n, _, own, holds⟩)
        · rcases edit.stored n str holds with ⟨rfl, _⟩ | ⟨before, _⟩
          · exact absurd older (Nat.lt_irrefl _)
          · exact absurd ⟨n, before⟩ held
        · exact ⟨other, table, n, own, holds⟩
      · intro ⟨other, table, n, own, holds⟩
        refine .inr ⟨other, table, n, ?_, own, holds⟩
        rintro rfl
        rw [edit.own, Option.some.injEq] at own
        exact held ⟨n, own ▸ holds⟩
    unfold Leaked Live
    rw [same, rewritten_strings, unchanged]

/-- The new string is leaked exactly when it is live and not in the table. -/
theorem rewrite_leaked_newest (wf : WellFormed s)
    (edit : Rewrite s index ref fields fields' strings') :
    Leaked (rewritten s ref fields' strings') s.nextString ↔
      (∃ value, strings' s.nextString = some value) ∧
        ∀ n, StringHashtable.get fields' n ≠ some s.nextString := by
  unfold Leaked Live
  rw [rewrite_stored_iff wf edit, rewritten_strings]
  refine and_congr_right fun _ => ?_
  constructor
  · intro unstored n holds
    exact unstored (.inl ⟨n, holds⟩)
  · rintro absent (⟨n, holds⟩ | ⟨other, table, n, _, own, holds⟩)
    · exact absent n holds
    · exact absurd (wf.live other table n _ own holds).1 (Nat.lt_irrefl _)

/-- A rewriting that releases what it takes out of the table leaks nothing but a
new string that it neither releases nor stores. -/
theorem rewrite_ledger (wf : WellFormed s) (fresh : Fresh s)
    (edit : Rewrite s index ref fields fields' strings')
    (later : ∀ str, s.nextString < str → strings' str = none)
    (released : ∀ n str, StringHashtable.get fields n = some str →
      (∃ m, StringHashtable.get fields' m = some str) ∨ strings' str = none) :
    Ledger s (rewritten s ref fields' strings')
      (strings' s.nextString = none ∨ ∃ n, StringHashtable.get fields' n = some s.nextString) := by
  have fresh' : Fresh (rewritten s ref fields' strings') := later
  have older (str : StringRef) (below : str < s.nextString) :=
    rewrite_leaked_older wf edit str below fun n holds => released n str holds
  have newest := rewrite_leaked_newest wf edit
  refine ⟨fresh', fun str leaked => (older str (leaked.below fresh)).mpr leaked, ?_⟩
  constructor
  · intro none_new
    by_contra kept
    rw [not_or, not_exists] at kept
    have leaked := none_new _ (newest.mpr ⟨Option.ne_none_iff_exists'.mp kept.1, kept.2⟩)
    exact absurd (leaked.below fresh) (Nat.lt_irrefl _)
  · intro accounted str leaked
    rcases Nat.lt_succ_iff_lt_or_eq.mp (leaked.below fresh') with below | rfl
    · exact (older str below).mp leaked
    · obtain ⟨⟨value, live⟩, unstored⟩ := newest.mp leaked
      rcases accounted with gone | ⟨n, holds⟩
      · rw [gone] at live
        cases live
      · exact absurd holds (unstored n)

/-- A string stored in place of another, which is released. -/
theorem assigned_ledger (wf : WellFormed s) (fresh : Fresh s)
    (found : StringHashtable.get s.keyTable index = some ref) (here : s.tables ref = some fields)
    (assigned : Assigned s fields name value fields' strings') :
    Ledger s (rewritten s ref fields' strings') True := by
  have edit := assigned.rewrite wf found here
  have stored : StringHashtable.get fields' name = some s.nextString := by
    rw [assigned.gets, if_pos rfl]
  refine (rewrite_ledger wf fresh edit ?_ ?_).congr ⟨fun _ => trivial, fun _ => .inr ⟨_, stored⟩⟩
  · intro str above
    rw [assigned.kept str (Nat.ne_of_gt above), fresh str (Nat.le_of_lt above)]
    intro holds
    exact Nat.lt_asymm above (wf.live index fields name str edit.own holds).1
  · intro n str holds
    by_cases same : n = name
    · subst n
      exact .inr (assigned.released str holds)
    · exact .inl ⟨n, by rw [assigned.gets, if_neg same, holds]⟩

/-- A string that is not stored is leaked unless it is released again. -/
theorem discarded_ledger (wf : WellFormed s) (fresh : Fresh s)
    (found : StringHashtable.get s.keyTable index = some ref) (here : s.tables ref = some fields)
    (discarded : Discarded s fields fields' strings') :
    Ledger s (rewritten s ref fields' strings') (strings' s.nextString = none) := by
  have edit := discarded.rewrite wf found here
  have unstored : ¬ ∃ n, StringHashtable.get fields' n = some s.nextString := by
    intro ⟨n, holds⟩
    rw [discarded.gets] at holds
    exact absurd (wf.live index fields n _ edit.own holds).1 (Nat.lt_irrefl _)
  refine (rewrite_ledger wf fresh edit ?_ ?_).congr (or_iff_left unstored)
  · intro str above
    rw [discarded.kept str (Nat.ne_of_gt above), fresh str (Nat.le_of_lt above)]
  · intro n str holds
    exact .inl ⟨n, by rw [discarded.gets, holds]⟩

end rewrite

section loops

variable [LawfulStringHashtable H] {index : CStr} {ref : TableRef}

/-- The loop that fills a new record leaks the copy of every pair whose name is
taken when its turn comes. -/
theorem updateNew_ledger (values : List KVPair) (record : Record) (wf : WellFormed s)
    (fresh : Fresh s) (found : StringHashtable.get s.keyTable index = some ref)
    (before : records s index = some record) :
    ∃ s', s.updateNew ref values = some s' ∧
      Ledger s s' ((PartialMap.addUntilPresent record (fieldPairs values)).1 = true) := by
  induction values generalizing s record with
  | nil => exact ⟨s, rfl, (Ledger.refl fresh).congr ⟨fun _ => rfl, fun _ => trivial⟩⟩
  | cons fieldPair rest ih =>
    obtain ⟨_, fields, here⟩ := wf.allocated index ref found
    rw [records_of_get found here, Option.some.injEq] at before
    have present := contents_isSome wf (fieldTable_of_get found here) (cStr fieldPair.1)
    have step := wf.insert_step found here (cStr fieldPair.1) (cStr fieldPair.2)
    rw [before] at step present
    rw [fieldPairs, List.map_cons, PartialMap.addUntilPresent, updateNew]
    simp only [copyString, here]
    cases stored : StringHashtable.get fields (cStr fieldPair.1) with
    | none =>
      rw [stored, Option.isSome_none] at present
      rw [present, if_neg Bool.false_ne_true] at step ⊢
      have balanced := assigned_ledger wf fresh found here
        (insert_assigned (cStr fieldPair.1) (cStr fieldPair.2) stored)
      obtain ⟨s', ran, later⟩ := ih _ step.wellFormed balanced.fresh found step.record
      exact ⟨s', ran, balanced.then later⟩
    | some old =>
      rw [stored, Option.isSome_some] at present
      rw [present, if_pos rfl] at step ⊢
      have leaking := discarded_ledger wf fresh found here (insert_discarded (cStr fieldPair.1)
        (Function.update s.strings s.nextString (some (cStr fieldPair.2)))
        (by rw [stored, Option.isSome_some]) fun str other => Function.update_of_ne other ..)
      obtain ⟨s', ran, later⟩ := ih _ step.wellFormed leaking.fresh found step.record
      refine ⟨s', ran, (leaking.trans later).congr ⟨?_, ?_⟩⟩
      · intro accounted
        obtain ⟨released, _⟩ := accounted
        rw [Function.update_self] at released
        cases released
      · intro impossible
        cases impossible

theorem updateExisting_ledger (values : List KVPair) (wf : WellFormed s) (fresh : Fresh s)
    (found : StringHashtable.get s.keyTable index = some ref) :
    ∃ s', s.updateExisting ref values = some s' ∧ Ledger s s' True := by
  induction values generalizing s with
  | nil => exact ⟨s, rfl, .refl fresh⟩
  | cons fieldPair rest ih =>
    obtain ⟨_, fields, here⟩ := wf.allocated index ref found
    obtain ⟨fields₁, strings₁, assigned, round⟩ := updateExisting_round fieldPair wf found here
    have balanced := assigned_ledger wf fresh found here assigned
    obtain ⟨s', ran, later⟩ := ih (assigned.becomes wf found here).wellFormed balanced.fresh found
    exact ⟨s', (round rest).trans ran, balanced.then later⟩

/-- The loop of `Insert` releases the copy that it cannot store. -/
theorem insertFields_ledger (values : List KVPair) (wf : WellFormed s) (fresh : Fresh s)
    (found : StringHashtable.get s.keyTable index = some ref) :
    ∃ s' status, s.insertFields ref values = some (s', status) ∧ Ledger s s' True := by
  induction values generalizing s with
  | nil => exact ⟨s, .kOK, rfl, .refl fresh⟩
  | cons fieldPair rest ih =>
    obtain ⟨_, fields, here⟩ := wf.allocated index ref found
    have ok := LawfulStringHashtable.insert_result fields (cStr fieldPair.1) s.nextString
    rw [insertFields]
    simp only [copyString, here, ok]
    cases stored : StringHashtable.get fields (cStr fieldPair.1) with
    | none =>
      have assigned := insert_assigned (s := s) (cStr fieldPair.1) (cStr fieldPair.2) stored
      have balanced := assigned_ledger wf fresh found here assigned
      obtain ⟨s', status, ran, later⟩ :=
        ih (assigned.becomes wf found here).wellFormed balanced.fresh found
      exact ⟨s', status, ran, balanced.then later⟩
    | some old =>
      have discarded := insert_discarded (s := s) (cStr fieldPair.1) (Function.update
          (Function.update s.strings s.nextString (some (cStr fieldPair.2))) s.nextString none)
        (by rw [stored, Option.isSome_some]) (by
          intro str other
          rw [Function.update_of_ne other, Function.update_of_ne other])
      have balanced := (discarded_ledger wf fresh found here discarded).congr
        ⟨fun _ => trivial, fun _ => Function.update_self ..⟩
      have released := deleteString_live (s := (copyString s fieldPair.2).2.setTable ref
        (StringHashtable.insert fields (cStr fieldPair.1) s.nextString).2) (Function.update_self ..)
      simp only [copyString] at released
      refine ⟨_, .kErrorConflict, ?_, balanced⟩
      simp only [released]
      rfl

end loops

section operations

variable [LawfulStringHashtable H]

/-- An empty field table under an absent key stores nothing. -/
theorem create_ledger (wf : WellFormed s) (fresh : Fresh s) (index : CStr)
    (absent : StringHashtable.get s.keyTable index = none) : Ledger s (created s index) True := by
  obtain ⟨becomes, _⟩ := wf.create index absent
  have same (str : StringRef) : Stored (created s index) str ↔ Stored s str := by
    rw [framed_stored_own becomes.framed (created_fieldTable absent),
      framed_stored_absent (.refl index s) (fieldTable_absent absent)]
    refine or_iff_right ?_
    intro held
    obtain ⟨n, holds⟩ := held
    rw [LawfulStringHashtable.get_new] at holds
    cases holds
  exact .of_same fresh fun str => and_congr_right fun _ => not_congr (same str)

theorem update_ledger (wf : WellFormed s) (fresh : Fresh s) (table key : Bytes)
    (values : List KVPair) :
    ∃ s', s.update table key values = some (s', .kOK) ∧ Ledger s s'
      (records s (keyIndex table key) = none → ((fieldPairs values).map Prod.fst).Nodup) := by
  unfold update
  cases found : StringHashtable.get s.keyTable (keyIndex table key) with
  | none =>
    obtain ⟨create, pointer⟩ := wf.create (keyIndex table key) found
    have balanced := create_ledger wf fresh (keyIndex table key) found
    obtain ⟨s', ran, later⟩ := updateNew_ledger values _ create.wellFormed balanced.fresh pointer
      create.record
    refine ⟨s', ?_, (balanced.then later).congr ?_⟩
    · simp only [created, newFieldHashtable] at ran
      simp only [newFieldHashtable, ran, Option.map_some]
    · rw [PartialMap.addUntilPresent_all_iff, (records_eq_none_iff wf _).mpr found]
      simp
  | some ref =>
    obtain ⟨_, fields, here⟩ := wf.allocated _ ref found
    obtain ⟨s', ran, balanced⟩ := updateExisting_ledger values wf fresh found
    refine ⟨s', by simp only [ran, Option.map_some], balanced.congr ?_⟩
    rw [records_of_get found here]
    simp

theorem insert_ledger (wf : WellFormed s) (fresh : Fresh s) (table key : Bytes)
    (values : List KVPair) :
    ∃ s' status, s.insert table key values = some (s', status) ∧ Ledger s s' True := by
  unfold HashtableDB.insert
  cases found : StringHashtable.get s.keyTable (keyIndex table key) with
  | none =>
    obtain ⟨create, pointer⟩ := wf.create (keyIndex table key) found
    have balanced := create_ledger wf fresh (keyIndex table key) found
    obtain ⟨s', status, ran, later⟩ :=
      insertFields_ledger values create.wellFormed balanced.fresh pointer
    exact ⟨s', status, ran, balanced.then later⟩
  | some ref => exact insertFields_ledger values wf fresh found

/-- Deleting a record releases what is stored in it, and nothing else. -/
theorem delete_ledger (wf : WellFormed s) (fresh : Fresh s) (table key : Bytes) :
    ∃ s' status, s.delete table key = some (s', status) ∧ Ledger s s' True := by
  obtain ⟨s', ran, becomes⟩ := delete_spec wf table key
  refine ⟨s', _, ran, ?_⟩
  have gone : fieldTable s' (keyIndex table key) = none := by
    have record := becomes.record
    unfold records at record
    exact Option.map_eq_none_iff.mp record
  cases found : StringHashtable.get s.keyTable (keyIndex table key) with
  | none =>
    rw [delete_absent found, Option.some.injEq, Prod.mk.injEq] at ran
    have same (str : StringRef) : Stored s' str ↔ Stored s str := by
      rw [framed_stored_absent becomes.framed gone,
        framed_stored_absent (.refl _ s) (fieldTable_absent found)]
    obtain ⟨rfl, _⟩ := ran
    exact .of_same fresh fun str => and_congr_right fun _ => not_congr (same str)
  | some ref =>
    obtain ⟨_, fields, here⟩ := wf.allocated _ ref found
    have own := fieldTable_of_get found here
    rw [delete_present wf found here, Option.some.injEq, Prod.mk.injEq] at ran
    have strings (str : StringRef) : s'.strings str =
        if str ∈ (StringHashtable.entries fields none allEntries).map Prod.snd then none
        else s.strings str := by rw [← ran.1]
    apply removed_ledger fresh own becomes.framed gone (by rw [← ran.1])
    · intro n str holds
      rw [strings, if_pos]
      exact List.mem_map.mpr ⟨_, LawfulStringHashtable.entries_complete fields n str holds, rfl⟩
    · intro str unheld
      rw [strings, if_neg]
      intro member
      obtain ⟨n, _, holds, _⟩ := (listed_strings wf own none allEntries).2 str member
      exact unheld ⟨n, holds⟩

/-- An update that creates its record with pairwise distinct names, or any other call. -/
def Accounted (s : HashtableDB H) : Call → Prop
  | .update table key values =>
    records s (keyIndex table key) = none → ((fieldPairs values).map Prod.fst).Nodup
  | .read .. | .scan .. | .insert .. | .delete .. => True

theorem perform_ledger (wf : WellFormed s) (fresh : Fresh s) (call : Call) :
    ∃ s' reply, perform s call = some (s', reply) ∧ WellFormed s' ∧
      Ledger s s' (Accounted s call) := by
  obtain ⟨s', reply, performed, wf', _⟩ := perform_framed wf call
  refine ⟨s', reply, performed, wf', ?_⟩
  have same {after : HashtableDB H} {answer : Reply} (ran : perform s call = some (after, answer)) :
      after = s' := by
    rw [performed, Option.some.injEq, Prod.mk.injEq] at ran
    exact ran.1.symm
  cases call with
  | update table key values =>
    obtain ⟨after, ran, ledger⟩ := update_ledger wf fresh table key values
    exact same (perform_update ran) ▸ ledger
  | insert table key values =>
    obtain ⟨after, status, ran, ledger⟩ := insert_ledger wf fresh table key values
    exact same (perform_insert ran) ▸ ledger
  | delete table key =>
    obtain ⟨after, status, ran, ledger⟩ := delete_ledger wf fresh table key
    exact same (perform_delete ran) ▸ ledger
  | read table key fields =>
    simp only [perform, Option.map_eq_some_iff, Prod.mk.injEq] at performed
    obtain ⟨_, _, rfl, _⟩ := performed
    exact .refl fresh
  | scan table key len fields =>
    simp only [perform, Option.map_eq_some_iff, Prod.mk.injEq] at performed
    obtain ⟨_, _, rfl, _⟩ := performed
    exact .refl fresh

/-- A run returns, and leaks nothing exactly when each of its calls is accounted
for in the state it meets. -/
theorem run_ledger (calls : List Call) (wf : WellFormed s) (fresh : Fresh s) :
    ∃ s' replies, Machine.run perform s calls = some (s', replies) ∧ WellFormed s' ∧
      Ledger s s' (Machine.Along perform Accounted s calls) := by
  induction calls generalizing s with
  | nil => exact ⟨s, [], rfl, wf, .refl fresh⟩
  | cons call rest ih =>
    obtain ⟨next, reply, moved, wf', first⟩ := perform_ledger wf fresh call
    obtain ⟨s', replies, ran, wf'', later⟩ := ih wf' first.fresh
    refine ⟨s', reply :: replies, (Machine.run_cons ..).mpr ⟨next, reply, replies, moved, ran, rfl⟩,
      wf'', (first.trans later).congr (Machine.along_cons moved rest).symm⟩

end operations

theorem fresh_empty : Fresh (empty : HashtableDB H) := fun _ _ => rfl

/-- Every run returns, so no call releases a string twice or uses a released one.
What is stored at its end is live and stored once; and what is live is stored,
so that each string has exactly one owner, if and only if every `Update` of the
run that created a record was given pairwise distinct names. -/
theorem one_owner_iff_accounted (H : Type → Type) [StringHashtable H] [LawfulStringHashtable H]
    (calls : List Call) :
    ∃ (s : HashtableDB H) (replies : List Reply),
      Machine.run perform empty calls = some (s, replies) ∧
      (∀ str, Stored s str → Live s str) ∧ StoredOnce s ∧
      (OneOwner s ↔ Machine.Along perform Accounted (empty : HashtableDB H) calls) := by
  obtain ⟨s, replies, ran, wf, ledger⟩ := run_ledger calls (wellFormed_empty (H := H)) fresh_empty
  refine ⟨s, replies, ran, live_of_stored wf, wf.owner, ?_⟩
  rw [oneOwner_iff wf, ← ledger.exact_iff]
  constructor
  · intro none_leaked str leaked
    exact absurd leaked (none_leaked str)
  · intro none_new str leaked
    obtain ⟨⟨value, live⟩, _⟩ := none_new str leaked
    cases live

/-- A refused insert, an update that creates a record, a deletion. -/
theorem one_owner_iff_accounted_three : ∃ (s : HashtableDB ListTable) (replies : List Reply),
    Machine.run perform empty [.insert [116] [107] [([97], [1]), ([97], [2])],
      .update [116] [108] [([97], [3]), ([98], [4])], .delete [116] [107]] = some (s, replies) ∧
    OneOwner s := by
  obtain ⟨s, replies, ran, _, _, owned⟩ := one_owner_iff_accounted ListTable
    [.insert [116] [107] [([97], [1]), ([97], [2])],
      .update [116] [108] [([97], [3]), ([98], [4])], .delete [116] [107]]
  refine ⟨s, replies, ran, owned.mpr ⟨trivial, ?_⟩⟩
  intro _ _ _
  exact ⟨fun _ => by decide, fun _ _ _ => ⟨trivial, fun _ _ _ => trivial⟩⟩

/-- An update that gives a new record one name twice. -/
theorem repeated_name_leaks :
    ¬ ∀ (calls : List Call) (s : HashtableDB ListTable) (replies : List Reply),
      Machine.run perform empty calls = some (s, replies) → OneOwner s := by
  intro claimed
  obtain ⟨s, replies, ran, wf, ledger⟩ := run_ledger
    [.update [116] [107] [([97], [1]), ([97], [2])]] (wellFormed_empty (H := ListTable)) fresh_empty
  have kept := (oneOwner_iff wf).mp (claimed _ s replies ran)
  have accounted := ledger.exact_iff.mp fun str leaked => absurd leaked (kept str)
  exact absurd (accounted.1 rfl) (by decide)

end YcsbCloud.Guarantees.HashtableHandles
