import YcsbCloud.Guarantees.LoadPhase
import YcsbCloud.Guarantees.RunPhase
import YcsbCloud.Source.RocksDBCloud

/-!
# The two phases on one store

The calls that a phase makes are performed by `RocksDBCloud` in the order in which the
threads made them. A load phase that has ended leaves a record with all its fields under
the name of each number drawn, and nothing else. Where the shares of the threads make up
all records, no read of a run phase misses afterwards.
-/
namespace YcsbCloud.Guarantees.LoadedStore
open Library Library.Interleaving Source Source.CoreWorkload Source.Client Source.DelegateClient
  Source.RecordCodec Source.RocksDBCloud LoadPhase RunPhase

variable {wl : CoreWorkload} {ranks : Ranks} {totalOps numThreads : Nat}
  {c : System (Fin numThreads) Shared Thread}

/-- Where a thread of the phase can stand. -/
def InPhase (isLoading : Bool) (l : Thread) : Prop :=
  match l.position with
  | .sequenceKey => isLoading = true
  | .operation | .insertCounter | .keyDraw _ | .keyTest .. => isLoading = false
  | .loopTest | .database _ | .done => True

theorem inPhase_step {isLoading : Bool} {numOps : Nat} {s s' : Shared} {l l' : Thread}
    (inPhase : InPhase isLoading l) (moved : Moves wl ranks isLoading numOps s l s' l') :
    InPhase isLoading l' := by
  cases moved with
  | enter nextReport here more => cases isLoading <;> rfl
  | chooseOperation op here =>
    simp only [InPhase, here] at inPhase
    by_cases inserting : op = .INSERT <;> simp only [InPhase, inserting, if_true, if_false, inPhase]
  | drawKey op keyNum here drawn =>
    simp only [InPhase, here] at inPhase
    exact inPhase
  | rejectKey op keyNum here above =>
    simp only [InPhase, here] at inPhase
    exact inPhase
  | _ => trivial

theorem doTransaction_keyed {op : Operation} (keyed : op ≠ .INSERT) (key : Bytes) (keyNum : Nat)
    (draws : TransactionDraws) :
    doTransaction wl op key keyNum draws = keyedTransaction wl op key draws := by
  cases op with
  | INSERT => exact absurd rfl keyed
  | READ | UPDATE | SCAN | READMODIFYWRITE => rfl

/-- What holds of every call that `DoInsert` makes while loading, and of every call of a
transaction otherwise, holds of every call of the phase. -/
theorem calls_all {isLoading : Bool} (P : Call → Prop)
    (loads : isLoading = true → ∀ key values, ∀ call ∈ doInsert wl key values, P call)
    (runs : isLoading = false → ∀ op key keyNum draws, ∀ call ∈ doTransaction wl op key keyNum draws,
      P call)
    (reached : PhaseReachable wl ranks isLoading totalOps numThreads c) :
    ∀ call ∈ c.shared.calls, P call := by
  refine (reached.each_thread (fun s => ∀ call ∈ s.calls, P call)
    (fun _ l => InPhase isLoading l ∧ ∀ call ∈ pendingCalls l, P call)
    (by simp [launch]) (fun _ => ⟨trivial, by simp [launch, start, pendingCalls]⟩) ?_ ?_).1
  · intro a s l s' l' made own moved
    have move := delegateClient_moves moved
    have inPhase := inPhase_step own.1 move
    have here_phase := own.1
    cases move with
    | drawSequence values here =>
      simp only [InPhase, here] at here_phase
      exact ⟨made, inPhase, loads here_phase _ values⟩
    | drawInsert draws here =>
      simp only [InPhase, here] at here_phase
      exact ⟨made, inPhase, runs here_phase .INSERT [] _ draws⟩
    | acceptKey op keyNum draws here eligible =>
      simp only [InPhase, here] at here_phase
      refine ⟨made, inPhase, ?_⟩
      intro call waiting
      by_cases inserting : op = .INSERT
      · subst inserting
        exact absurd waiting List.not_mem_nil
      · exact runs here_phase op _ keyNum draws call
          ((doTransaction_keyed inserting _ keyNum draws).symm ▸ waiting)
    | call status call rest here =>
      have pending := own.2
      simp only [pendingCalls, here, List.mem_cons, forall_eq_or_imp] at pending
      refine ⟨?_, inPhase, pending.2⟩
      intro other member
      rcases List.mem_append.mp member with before | last
      · exact made other before
      · exact List.mem_singleton.mp last ▸ pending.1
    | enter nextReport here more =>
      refine ⟨made, inPhase, ?_⟩
      cases isLoading <;> simp [pendingCalls]
    | chooseOperation op here =>
      refine ⟨made, inPhase, ?_⟩
      by_cases inserting : op = .INSERT <;> simp [pendingCalls, inserting]
    | leave here all | finish _ here | drawKey _ _ here | rejectKey _ _ here =>
      exact ⟨made, inPhase, by simp [pendingCalls]⟩
  · intro a s l s' l' other _ own _
    exact own

/-- A call that deletes nothing. -/
def Keeps (call : Call) : Prop := ∀ table key, call ≠ .delete table key

theorem doTransaction_keeps (op : Operation) (key : Bytes) (keyNum : Nat) (draws : TransactionDraws) :
    ∀ call ∈ doTransaction wl op key keyNum draws, Keeps call := by
  intro call member table deleted same
  subst same
  by_cases inserting : op = .INSERT
  · subst inserting
    cases List.mem_singleton.mp member
  · rw [doTransaction_keyed inserting] at member
    cases (keyedTransaction_calls op key draws _ member).1

theorem doInsert_keeps (key : Bytes) (values : Nat → ValueDraw) :
    ∀ call ∈ doInsert wl key values, Keeps call := by
  intro call member table deleted same
  subst same
  cases List.mem_singleton.mp member

theorem calls_keep {isLoading : Bool}
    (reached : PhaseReachable wl ranks isLoading totalOps numThreads c) :
    ∀ call ∈ c.shared.calls, Keeps call :=
  calls_all Keeps (fun _ => doInsert_keeps) (fun _ => doTransaction_keeps) reached

/-- A call that writes a record with all its fields. -/
def WritesLoaded (wl : CoreWorkload) (call : Call) : Prop :=
  ∃ key values, call = .insert wl.tableName key values ∧ values.map Prod.fst = wl.loadedNames

theorem calls_writeLoaded (reached : PhaseReachable wl ranks true totalOps numThreads c) :
    ∀ call ∈ c.shared.calls, WritesLoaded wl call := by
  refine calls_all (WritesLoaded wl) ?_ (fun running => by cases running) reached
  intro _ key values call member
  exact ⟨key, _, List.mem_singleton.mp member, buildValues_names wl values⟩

theorem lastWritten_append (before : List Call) (call : Call) (key : Bytes) :
    lastWritten (before ++ [call]) key = recordAfter key (lastWritten before key) call := by
  rw [lastWritten, List.foldl_append]
  rfl

/-- Without deletes a record stays once it is inserted. -/
theorem lastWritten_isSome {calls : List Call} (keep : ∀ call ∈ calls, Keeps call) {key : Bytes}
    (inserted : key ∈ insertedKeys calls) : (lastWritten calls key).isSome := by
  induction calls using List.reverseRecOn with
  | nil => exact absurd inserted List.not_mem_nil
  | append_singleton before call ih =>
    have kept := keep call (by simp)
    have earlier := ih fun other member => keep other (List.mem_append_left _ member)
    rw [lastWritten_append]
    rw [insertedKeys, List.filterMap_append, List.mem_append] at inserted
    cases call with
    | insert table written values =>
      rw [recordAfter]
      split
      · rfl
      next other =>
        rcases inserted with before | last
        · exact earlier before
        · simp only [List.filterMap_cons, Call.insertedKey, List.filterMap_nil,
            List.mem_singleton] at last
          exact absurd last.symm other
    | update table written values =>
      rw [recordAfter]
      split
      · rfl
      next other =>
        rcases inserted with before | last
        · exact earlier before
        · exact absurd last List.not_mem_nil
    | delete table deleted => exact absurd rfl (kept table deleted)
    | read table read fields =>
      rcases inserted with before | last
      · exact earlier before
      · exact absurd last List.not_mem_nil
    | scan table start len fields =>
      rcases inserted with before | last
      · exact earlier before
      · exact absurd last List.not_mem_nil

/-- After inserts of whole records alone, what is stored under a key is a whole record, and
the key was inserted. -/
theorem lastWritten_loaded {calls : List Call} (load : ∀ call ∈ calls, WritesLoaded wl call)
    {key : Bytes} {kvs : List KVPair} (stored : lastWritten calls key = some kvs) :
    kvs.map Prod.fst = wl.loadedNames ∧ key ∈ insertedKeys calls := by
  induction calls using List.reverseRecOn with
  | nil => cases stored
  | append_singleton before call ih =>
    obtain ⟨written, values, rfl, names⟩ := load call (by simp)
    rw [lastWritten_append, recordAfter] at stored
    rw [insertedKeys, List.filterMap_append, List.mem_append]
    split at stored
    next same =>
      cases stored
      exact ⟨names, .inr (List.mem_singleton.mpr same.symm)⟩
    next _ =>
      obtain ⟨whole, member⟩ := ih (fun other member => load other (List.mem_append_left _ member))
        stored
      exact ⟨whole, .inl member⟩

theorem perform_noResult {s s' : RocksDBCloud} {call : Call} {reply : Reply}
    (moved : perform s call = some (s', reply))
    (found : ∀ key, call.requestedKey = some key → (s.db[key]?).isSome) :
    s'.noResult = s.noResult := by
  cases call with
  | read table key fields =>
    obtain ⟨value, stored⟩ := Option.isSome_iff_exists.mp (found key rfl)
    simp only [perform, RocksDBCloud.read, stored] at moved
    split at moved <;> simp at moved
    rw [← moved.1]
  | scan table key len fields =>
    cases moved
    rfl
  | update table key values | insert table key values =>
    simp only [perform, update, RocksDBCloud.insert] at moved
    split at moved <;> simp at moved
    rw [← moved.1]
  | delete table key =>
    cases moved
    rfl

/-- A run whose queries are of keys that have records, and that deletes none. -/
theorem run_hits (calls : List Call) (storable : ∀ call ∈ calls, Storable call.values)
    (keep : ∀ call ∈ calls, Keeps call) {s : RocksDBCloud} {records : Bytes → Option (List KVPair)}
    (holds : s.Holds records)
    (found : ∀ call ∈ calls, ∀ key, call.requestedKey = some key → (records key).isSome) :
    ∃ s' replies, Machine.run perform s calls = some (s', replies) ∧ s'.noResult = s.noResult := by
  induction calls generalizing s records with
  | nil => exact ⟨s, [], rfl, rfl⟩
  | cons call rest ih =>
    obtain ⟨next, reply, after, moved, ⟨recorded, _⟩, nextHolds⟩ :=
      perform_simulates s records call holds (storable call (List.mem_cons_self ..))
    have kept := keep call (List.mem_cons_self ..)
    have hit : next.noResult = s.noResult := by
      refine perform_noResult moved ?_
      intro key requested
      obtain ⟨kvs, stored⟩ := Option.isSome_iff_exists.mp
        (found call (List.mem_cons_self ..) key requested)
      rw [(holds.of_some stored).2]
      rfl
    obtain ⟨s', replies, ran, hits⟩ := ih
      (fun other member => storable other (List.mem_cons_of_mem _ member))
      (fun other member => keep other (List.mem_cons_of_mem _ member)) nextHolds (by
        intro other member key requested
        have before := found other (List.mem_cons_of_mem _ member) key requested
        rw [recorded]
        cases call with
        | insert table written values | update table written values =>
          dsimp only [recordAfter]
          split
          · rfl
          · exact before
        | delete table deleted => exact absurd rfl (kept table deleted)
        | read table queried fields | scan table start len fields => exact before)
    exact ⟨s', reply :: replies, (Machine.run_cons ..).mpr ⟨next, _, _, moved, ran, rfl⟩,
      hits.trans hit⟩

/-- A load phase that has ended leaves a record for each number drawn and no other, each
with all its fields, whatever the schedule. -/
theorem load_fills_store (wl : CoreWorkload) (ranks : Ranks) (recordCount numThreads : Nat)
    (fits : wl.keyGenerator.counter + recordCount < 2 ^ 64)
    (c : System (Fin numThreads) Shared Thread)
    (reached : PhaseReachable wl ranks true recordCount numThreads c) (final : Final c)
    (storable : ∀ call ∈ c.shared.calls, Storable call.values) :
    ∃ s replies, Machine.run perform empty c.shared.calls = some (s, replies) ∧
      (∀ key, (s.db[key]?).isSome ↔ ∃ number, wl.keyGenerator.counter ≤ number ∧
        number < wl.keyGenerator.counter + numThreads * (recordCount / numThreads) ∧
        key = wl.buildKeyName number) ∧
      ∀ key, (s.db[key]?).isSome → ∃ kvs, s.readAll wl.tableName key = some (.kOK, kvs) ∧
        kvs.map Prod.fst = wl.loadedNames := by
  obtain ⟨s, replies, ran, holds, _⟩ := run_holds_lastWritten c.shared.calls storable
  have stored (key : Bytes) : (s.db[key]?).isSome ↔ (lastWritten c.shared.calls key).isSome := by
    cases found : lastWritten c.shared.calls key with
    | none =>
      rw [holds.of_none found]
      exact Iff.rfl
    | some kvs =>
      rw [(holds.of_some found).2]
      exact Iff.rfl
  refine ⟨s, replies, ran, ?_, ?_⟩
  · intro key
    rw [stored, ← loaded_keys_interval fits reached final]
    constructor
    · intro present
      obtain ⟨kvs, found⟩ := Option.isSome_iff_exists.mp present
      exact (lastWritten_loaded (calls_writeLoaded reached) found).2
    · exact lastWritten_isSome (calls_keep reached)
  · intro key present
    rw [stored] at present
    obtain ⟨kvs, found⟩ := Option.isSome_iff_exists.mp present
    refine ⟨kvs, ?_, (lastWritten_loaded (calls_writeLoaded reached) found).1⟩
    rw [holds.readAll, found]
    rfl

theorem requested_loaded {p : Config} (made : Initialized p wl) (records : 1 ≤ p.recordCount.val)
    (fromZero : p.insertStart.val = 0) (divides : numThreads ∣ p.recordCount.val.toNat)
    (reached : PhaseReachable wl ranks true p.recordCount.val.toNat numThreads c) (final : Final c)
    {d : System (Fin numThreads) Shared Thread}
    (ran : PhaseReachable wl ranks false totalOps numThreads d) {call : Call}
    (member : call ∈ d.shared.calls) {key : Bytes} (requested : call.requestedKey = some key) :
    key ∈ insertedKeys c.shared.calls := by
  have start : wl.keyGenerator.counter = 0 := by
    rw [made.keyGenerator_start (by omega), fromZero]
    rfl
  have upper := p.recordCount.property.2
  have returned := (run_calls ran call member).requested key requested
  obtain ⟨keyNum, _, below, named⟩ := (returns_iff p ranks made records key).mp returned
  rw [loaded_keys_interval (by omega) reached final]
  exact ⟨keyNum, by omega, by rw [Nat.mul_div_cancel' divides]; omega, named⟩

/-- After a load phase that has ended no read of a run phase misses: the count that
`PrintStats` prints of them stays zero, and each read finds the last record written under
its key. -/
theorem no_read_misses (p : Config) (wl : CoreWorkload) (accepted : init p = .ok wl)
    (records : 1 ≤ p.recordCount.val) (fromZero : p.insertStart.val = 0) (ranks : Ranks)
    (numThreads : Nat) (divides : numThreads ∣ p.recordCount.val.toNat)
    (c : System (Fin numThreads) Shared Thread)
    (reached : PhaseReachable wl ranks true p.recordCount.val.toNat numThreads c) (final : Final c)
    (operationCount : Nat) (d : System (Fin numThreads) Shared Thread)
    (ran : PhaseReachable wl ranks false operationCount numThreads d)
    (storable : ∀ call ∈ c.shared.calls ++ d.shared.calls, Storable call.values) :
    ∃ s replies, Machine.run perform empty (c.shared.calls ++ d.shared.calls) = some (s, replies) ∧
      s.noResult = 0 ∧
      ∀ (i : Nat) (table key : Bytes) (fields : Option (List Bytes)),
        (c.shared.calls ++ d.shared.calls)[i]? = some (.read table key fields) →
        ∃ kvs, lastWritten ((c.shared.calls ++ d.shared.calls).take i) key = some kvs ∧
          replies[i]? = some ⟨.kOK, [kvs]⟩ := by
  have made := init_initialized p wl accepted
  have loadStorable : ∀ call ∈ c.shared.calls, Storable call.values := fun call member =>
    storable call (List.mem_append_left _ member)
  have queriesNothing : ∀ call ∈ c.shared.calls, call.requestedKey = none := by
    intro call member
    obtain ⟨key, values, rfl, _⟩ := calls_writeLoaded reached call member
    rfl
  obtain ⟨loaded, loadReplies, loadRan, loadHolds, _⟩ :=
    run_holds_lastWritten c.shared.calls loadStorable
  obtain ⟨loaded', _, loadRan', loadHits⟩ := run_hits c.shared.calls loadStorable (calls_keep reached)
    empty_holds fun call member key requested => by
      rw [queriesNothing call member] at requested
      cases requested
  obtain ⟨s, runReplies, runRan, runHits⟩ := run_hits d.shared.calls
    (fun call member => storable call (List.mem_append_right _ member)) (calls_keep ran) loadHolds
    fun call member key requested => lastWritten_isSome (calls_keep reached)
      (requested_loaded made records fromZero divides reached final ran member requested)
  obtain ⟨s', replies, whole, _, replied⟩ := run_holds_lastWritten _ storable
  have same : s' = s ∧ loaded' = loaded := by
    rw [loadRan] at loadRan'
    have joined := (Machine.run_append ..).mpr ⟨loaded, loadReplies, runReplies, loadRan, runRan, rfl⟩
    rw [whole] at joined
    cases joined
    cases loadRan'
    exact ⟨rfl, rfl⟩
  obtain ⟨rfl, rfl⟩ := same
  refine ⟨s', replies, whole, runHits.trans loadHits, ?_⟩
  intro i table key fields here
  have later : c.shared.calls.length ≤ i := by
    by_contra earlier
    rw [List.getElem?_append_left (Nat.lt_of_not_le earlier)] at here
    cases queriesNothing _ (List.mem_of_getElem? here)
  have queried : Call.read table key fields ∈ d.shared.calls := by
    rw [List.getElem?_append_right later] at here
    exact List.mem_of_getElem? here
  have inserted := requested_loaded made records fromZero divides reached final ran queried rfl
  have present : (lastWritten ((c.shared.calls ++ d.shared.calls).take i) key).isSome := by
    apply lastWritten_isSome
    · intro call member
      rcases List.mem_append.mp (List.mem_of_mem_take member) with before | after
      · exact calls_keep reached call before
      · exact calls_keep ran call after
    · rw [List.take_append, List.take_of_length_le later, insertedKeys, List.filterMap_append]
      exact List.mem_append_left _ inserted
  obtain ⟨kvs, found⟩ := Option.isSome_iff_exists.mp present
  refine ⟨kvs, found, ?_⟩
  rw [replied i _ here, replyAfter, found]
  rfl

/-- Four records of two fields, and four operations. -/
def pairConfig : Config := { fieldCount := 2, recordCount := 4, operationCount := 4 }

def pairWorkload : CoreWorkload := (init pairConfig).toOption.get rfl

/-- Thread 0 reads the record that thread 1 updates. -/
def pairInput : Fin 2 → Input
  | 0 => ⟨.READ, 3, ⟨0, 1, fun _ => ⟨3, 97⟩, 1⟩, .kOK⟩
  | 1 => ⟨.UPDATE, 3, ⟨1, 0, fun _ => ⟨2, 98⟩, 1⟩, .kOK⟩

/-- A phase of four operations by two threads that step in turn. -/
def pairPhase (isLoading : Bool) (rounds : Nat) :
    Option (System (Fin 2) Shared Thread × List Unit) :=
  Machine.run (interleave (delegateClient pairWorkload (fun _ _ => true) isLoading (4 / 2)))
    (launch pairWorkload 2)
    (List.replicate rounds ((List.finRange 2).map fun i => (i, pairInput i))).flatten

/-- Four calls have been made, all of records that an encoding can hold. -/
def FourCalls (c : System (Fin 2) Shared Thread) : Prop :=
  c.shared.calls.length = 4 ∧ ∀ call ∈ c.shared.calls, Storable call.values

instance (c : System (Fin 2) Shared Thread) : Decidable (FourCalls c) :=
  inferInstanceAs (Decidable (_ ∧ _))

theorem pair_load :
    ∃ c, PhaseReachable pairWorkload (fun _ _ => true) true 4 2 c ∧ Final c ∧ FourCalls c := by
  have loaded : (pairPhase true 9).any (fun r => Final r.1 ∧ FourCalls r.1) = true := by
    decide +kernel
  obtain ⟨⟨c, outs⟩, ran, held⟩ := (Option.any_eq_true _ _).mp loaded
  exact ⟨c, ⟨_, outs, ran⟩, of_decide_eq_true held⟩

theorem pair_run :
    ∃ d, PhaseReachable pairWorkload (fun _ _ => true) false 4 2 d ∧ FourCalls d := by
  have performed : (pairPhase false 13).any (fun r => FourCalls r.1) = true := by decide +kernel
  obtain ⟨⟨d, outs⟩, ran, held⟩ := (Option.any_eq_true _ _).mp performed
  exact ⟨d, ⟨_, outs, ran⟩, of_decide_eq_true held⟩

theorem pairWorkload_accepted : init pairConfig = .ok pairWorkload := rfl

/-- Four records and no more, whatever order the threads ended in. -/
theorem load_fills_store_pair : ∃ c s replies,
    PhaseReachable pairWorkload (fun _ _ => true) true 4 2 c ∧ Final c ∧
    Machine.run perform empty c.shared.calls = some (s, replies) ∧
    ∀ key, (s.db[key]?).isSome ↔ ∃ number < 4, key = pairWorkload.buildKeyName number := by
  obtain ⟨c, reached, final, _, storable⟩ := pair_load
  obtain ⟨s, replies, ran, filled, _⟩ :=
    load_fills_store pairWorkload (fun _ _ => true) 4 2 (by decide) c reached final storable
  refine ⟨c, s, replies, reached, final, ran, fun key => ?_⟩
  rw [filled]
  exact exists_congr fun number => and_iff_right (Nat.zero_le number)

/-- Two reads and two updates of a record that both threads choose. -/
theorem no_read_misses_pair : ∃ c d s replies,
    PhaseReachable pairWorkload (fun _ _ => true) true 4 2 c ∧ Final c ∧
    PhaseReachable pairWorkload (fun _ _ => true) false 4 2 d ∧ d.shared.calls.length = 4 ∧
    Machine.run perform empty (c.shared.calls ++ d.shared.calls) = some (s, replies) ∧
    s.noResult = 0 := by
  obtain ⟨c, reached, final, _, loaded⟩ := pair_load
  obtain ⟨d, ran, four, performed⟩ := pair_run
  obtain ⟨s, replies, whole, hits, _⟩ := no_read_misses pairConfig pairWorkload
    pairWorkload_accepted (by decide) rfl (fun _ _ => true) 2 (by decide) c reached final 4 d ran
    (List.forall_mem_append.mpr ⟨loaded, performed⟩)
  exact ⟨c, d, s, replies, reached, final, ran, four, whole, hits⟩

end YcsbCloud.Guarantees.LoadedStore
