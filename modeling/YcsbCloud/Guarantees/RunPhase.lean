import YcsbCloud.Source.DelegateClient

/-!
# The run phase

Transactions choose their keys below the bound that `Init` set, and insert
transactions number theirs from a counter of their own. Nothing moves the bound:
a record inserted during the run never becomes eligible.
-/
namespace YcsbCloud.Guarantees.RunPhase
open Library Library.Interleaving Source Source.CoreWorkload Source.Client Source.DelegateClient

variable {wl : CoreWorkload} {ranks : Ranks} {totalOps numThreads : Nat}
  {c : System (Fin numThreads) Shared Thread}

/-- No move of any thread touches the bound. -/
theorem insertKeySequence_constant {isLoading : Bool}
    (reached : PhaseReachable wl ranks isLoading totalOps numThreads c) :
    c.shared.insertKeySequence = wl.insertKeySequence := by
  refine reached.shared_invariant (fun s => s.insertKeySequence = wl.insertKeySequence) rfl ?_
  intro a s l s' l' same moved
  cases delegateClient_moves moved <;> exact same

theorem insert_logged {isLoading : Bool}
    (reached : PhaseReachable wl ranks isLoading totalOps numThreads c) :
    c.shared.uniformInsertCounter.Logged kUniformInsertStart c.shared.insertNumbers := by
  refine reached.shared_invariant
    (fun s => s.uniformInsertCounter.Logged kUniformInsertStart s.insertNumbers)
    (CounterGenerator.logged_nil ⟨kUniformInsertStart⟩ (by decide)) ?_
  intro a s l s' l' logged moved
  cases delegateClient_moves moved with
  | drawInsert draws here => exact logged.next
  | _ => exact logged

/-- A call of the run phase requests a key that `NextTransactionKey` returns, or
inserts one numbered by the insert counter. -/
structure RunCall (wl : CoreWorkload) (ranks : Ranks) (insertNumbers : List Nat) (call : Call) :
    Prop where
  requested : ∀ key, call.requestedKey = some key →
    wl.nextTransactionKeyReturns ranks wl.insertKeySequence key
  inserted : ∀ key, call.insertedKey = some key →
    ∃ number ∈ insertNumbers, key = user ++ stdToString number

theorem RunCall.grow {numbers : List Nat} {call : Call} (explained : RunCall wl ranks numbers call)
    (more : List Nat) : RunCall wl ranks (numbers ++ more) call := by
  refine ⟨explained.requested, ?_⟩
  intro key inserted
  obtain ⟨number, member, named⟩ := explained.inserted key inserted
  exact ⟨number, List.mem_append_left _ member, named⟩

theorem keyedTransaction_calls (op : Operation) (key : Bytes) (draws : TransactionDraws)
    (call : Call) (member : call ∈ keyedTransaction wl op key draws) :
    call.requestedKey = some key ∧ call.insertedKey = none := by
  cases op with
  | READ =>
    rw [List.mem_singleton.mp member]
    exact ⟨rfl, rfl⟩
  | UPDATE =>
    rw [List.mem_singleton.mp member]
    exact ⟨rfl, rfl⟩
  | SCAN =>
    rw [List.mem_singleton.mp member]
    exact ⟨rfl, rfl⟩
  | READMODIFYWRITE =>
    rcases List.mem_pair.mp member with rfl | rfl <;> exact ⟨rfl, rfl⟩
  | INSERT => exact absurd member List.not_mem_nil

/-- What a running thread has established at each position of its loop. -/
def Established (wl : CoreWorkload) (ranks : Ranks) (s : Shared) (l : Thread) : Prop :=
  match l.position with
  | .sequenceKey => False
  | .keyTest _ keyNum => wl.keyChooser.canDraw ranks wl.insertKeySequence keyNum
  | .database pending => ∀ call ∈ pending, RunCall wl ranks s.insertNumbers call
  | .loopTest | .operation | .insertCounter | .keyDraw _ | .done => True

theorem established_step {numOps : Nat} {s s' : Shared} {l l' : Thread}
    (bound : s.insertKeySequence = wl.insertKeySequence)
    (made : ∀ call ∈ s.calls, RunCall wl ranks s.insertNumbers call)
    (own : Established wl ranks s l) (moved : Moves wl ranks false numOps s l s' l') :
    (∀ call ∈ s'.calls, RunCall wl ranks s'.insertNumbers call) ∧ Established wl ranks s' l' := by
  cases moved with
  | enter nextReport here more => exact ⟨made, trivial⟩
  | leave here all => exact ⟨made, trivial⟩
  | drawSequence values here => simp only [Established, here] at own
  | chooseOperation op here =>
    refine ⟨made, ?_⟩
    by_cases inserting : op = .INSERT <;> simp only [Established, inserting, if_true, if_false]
  | drawInsert draws here =>
    refine ⟨fun call before => (made call before).grow _, ?_⟩
    intro call waiting
    rw [List.mem_singleton.mp waiting]
    constructor
    · intro key requested
      cases requested
    · intro key inserted
      exact ⟨_, by simp, (Option.some.inj inserted).symm⟩
  | drawKey op keyNum here drawn =>
    rw [bound] at drawn
    exact ⟨made, drawn⟩
  | rejectKey op keyNum here above => exact ⟨made, trivial⟩
  | acceptKey op keyNum draws here eligible =>
    simp only [Established, here] at own
    refine ⟨made, ?_⟩
    intro call waiting
    obtain ⟨requests, none⟩ := keyedTransaction_calls op _ draws call waiting
    refine ⟨?_, fun key inserted => by rw [none] at inserted; cases inserted⟩
    intro key requested
    rw [requests] at requested
    exact ⟨keyNum, own, bound ▸ eligible, (Option.some.inj requested).symm⟩
  | call status call pending here =>
    simp only [Established, here, List.mem_cons, forall_eq_or_imp] at own
    refine ⟨?_, own.2⟩
    intro other member
    rcases List.mem_append.mp member with before | last
    · exact made other before
    · exact List.mem_singleton.mp last ▸ own.1
  | finish oks here => exact ⟨made, trivial⟩

theorem established_others {isLoading : Bool} {numOps : Nat} {s s' : Shared} {l l' other : Thread}
    (own : Established wl ranks s other) (moved : Moves wl ranks isLoading numOps s l s' l') :
    Established wl ranks s' other := by
  cases moved with
  | drawInsert draws here =>
    unfold Established at own ⊢
    cases standing : other.position with
    | database pending =>
      simp only [standing] at own ⊢
      exact fun call waiting => (own call waiting).grow _
    | keyTest op keyNum =>
      simp only [standing] at own ⊢
      exact own
    | sequenceKey => simp only [standing] at own
    | loopTest | operation | insertCounter | keyDraw op | done => simp only
  | _ => exact own

theorem run_calls (reached : PhaseReachable wl ranks false totalOps numThreads c) :
    ∀ call ∈ c.shared.calls, RunCall wl ranks c.shared.insertNumbers call := by
  refine (reached.each_thread (fun s => s.insertKeySequence = wl.insertKeySequence ∧
      ∀ call ∈ s.calls, RunCall wl ranks s.insertNumbers call) (Established wl ranks)
    ⟨rfl, by simp [launch]⟩ (fun _ => trivial) ?_ ?_).1.2
  · intro a s l s' l' ⟨bound, made⟩ own moved
    have move := delegateClient_moves moved
    obtain ⟨made', own'⟩ := established_step bound made own move
    refine ⟨⟨?_, made'⟩, own'⟩
    cases move <;> exact bound
  · intro a s l s' l' other _ own moved
    exact established_others own (delegateClient_moves moved)

/-- Every key queried or updated is one that `NextTransactionKey` can return. -/
theorem requested_returned (reached : PhaseReachable wl ranks false totalOps numThreads c)
    (key : Bytes) (member : key ∈ requestedKeys c.shared.calls) :
    wl.nextTransactionKeyReturns ranks wl.insertKeySequence key := by
  obtain ⟨call, made, requested⟩ := List.mem_filterMap.mp member
  exact (run_calls reached call made).requested key requested

/-- Every key that the run phase inserts is numbered by the insert counter. -/
theorem inserted_numbered (reached : PhaseReachable wl ranks false totalOps numThreads c)
    (key : Bytes) (member : key ∈ insertedKeys c.shared.calls) :
    ∃ number ∈ c.shared.insertNumbers, key = user ++ stdToString number := by
  obtain ⟨call, made, inserted⟩ := List.mem_filterMap.mp member
  exact (run_calls reached call made).inserted key inserted

theorem returns_iff (p : Config) (ranks : Ranks) (made : Initialized p wl)
    (records : 1 ≤ p.recordCount.val) (key : Bytes) :
    wl.nextTransactionKeyReturns ranks wl.insertKeySequence key ↔
      ∃ keyNum, wl.keyChooser.canDraw ranks wl.insertKeySequence keyNum ∧
        keyNum < p.recordCount.val.toNat ∧ key = wl.buildKeyName keyNum := by
  unfold nextTransactionKeyReturns
  rw [made.insertKeySequence_last records]
  constructor
  · intro ⟨keyNum, drawn, eligible, named⟩
    exact ⟨keyNum, drawn, by omega, named⟩
  · intro ⟨keyNum, drawn, below, named⟩
    exact ⟨keyNum, drawn, by omega, named⟩

/-- In every state of a run the bound is the last record loaded, however many
inserts have been made: the keys that a transaction can be given are the names
of the chooser's numbers below the record count, and no other key is requested. -/
theorem bound_stays_at_record_count (p : Config) (wl : CoreWorkload) (accepted : init p = .ok wl)
    (records : 3 ≤ p.recordCount.val) (ranks : Ranks) (operationCount numThreads : Nat)
    (c : System (Fin numThreads) Shared Thread)
    (reached : PhaseReachable wl ranks false operationCount numThreads c) :
    c.shared.insertKeySequence.last = p.recordCount.val.toNat - 1 ∧
    (∀ key, wl.nextTransactionKeyReturns ranks c.shared.insertKeySequence key ↔
      ∃ keyNum, wl.keyChooser.canDraw ranks wl.insertKeySequence keyNum ∧
        keyNum < p.recordCount.val.toNat ∧ key = wl.buildKeyName keyNum) ∧
    (∀ key ∈ requestedKeys c.shared.calls,
      ∃ keyNum < p.recordCount.val.toNat, key = wl.buildKeyName keyNum) := by
  have made := init_initialized p wl accepted
  have returns := returns_iff p ranks made (by omega)
  rw [insertKeySequence_constant reached]
  refine ⟨made.insertKeySequence_last (by omega), returns, ?_⟩
  intro key requested
  obtain ⟨keyNum, _, below, named⟩ := (returns key).mp (requested_returned reached key requested)
  exact ⟨keyNum, below, named⟩

/-- Where inserts are among the operations, a thread can begin with one. -/
theorem first_insert (inserting : Operation.INSERT ∈ wl.opChooser.map Prod.fst)
    (i : Fin numThreads) (work : 0 < totalOps / numThreads) :
    ∃ c, PhaseReachable wl ranks false totalOps numThreads c ∧
      c.shared.insertNumbers = [kUniformInsertStart] ∧
      insertedKeys c.shared.calls = [user ++ stdToString kUniformInsertStart] := by
  have initial : PhaseReachable wl ranks false totalOps numThreads (launch wl numThreads) :=
    ⟨[], [], rfl⟩
  obtain ⟨c₁, reached₁, shared₁, here₁⟩ := initial.advance (i := i) (a := anyInput) (if_pos work)
  obtain ⟨c₂, reached₂, shared₂, here₂⟩ :=
    reached₁.advance (i := i) (a := { anyInput with op := .INSERT }) (by
      rw [shared₁, here₁]
      exact if_pos inserting)
  obtain ⟨c₃, reached₃, shared₃, here₃⟩ :=
    reached₂.advance (i := i) (a := anyInput) (by rw [shared₂, here₂]; rfl)
  obtain ⟨c₄, reached₄, shared₄, _⟩ :=
    reached₃.advance (i := i) (a := anyInput) (by rw [shared₃, here₃]; rfl)
  refine ⟨c₄, reached₄, ?_, ?_⟩ <;> rw [shared₄] <;> rfl

/-- Properties of a run over so many records from `insertstart`, with inserts
among the transactions. -/
def mixedConfig (recordCount insertStart : CInt) (insertOrder : InsertOrder) : Config :=
  { recordCount, insertStart, insertOrder, operationCount := 2
    insertProportion := 1 / 2 }

theorem mixedConfig_accepted (recordCount insertStart : CInt) (insertOrder : InsertOrder) :
    ∃ wl, init (mixedConfig recordCount insertStart insertOrder) = .ok wl := ⟨_, rfl⟩

/-- A state of a run over so many records in which one insert has completed. -/
theorem mixedConfig_first_insert (recordCount insertStart : CInt) (insertOrder : InsertOrder) :
    ∃ wl, init (mixedConfig recordCount insertStart insertOrder) = .ok wl ∧
      ∃ c, PhaseReachable wl (fun _ _ => true) false 2 1 c ∧
        c.shared.insertNumbers = [kUniformInsertStart] ∧
        insertedKeys c.shared.calls = [user ++ stdToString kUniformInsertStart] := by
  obtain ⟨wl, accepted⟩ := mixedConfig_accepted recordCount insertStart insertOrder
  have inserting := (init_initialized _ wl accepted).insert_chosen (by norm_num [mixedConfig])
  exact ⟨wl, accepted, first_insert inserting 0 (by decide)⟩

/-- One insert has completed and the bound is where it was. -/
theorem bound_stays_at_record_count_inserted : ∃ wl,
    init (mixedConfig 3 0 .ordered) = .ok wl ∧
      ∃ c, PhaseReachable wl (fun _ _ => true) false 2 1 c ∧
        (insertedKeys c.shared.calls).length = 1 ∧ c.shared.insertKeySequence.last = 2 := by
  obtain ⟨wl, accepted, c, reached, _, inserted⟩ :=
    mixedConfig_first_insert 3 0 .ordered
  exact ⟨wl, accepted, c, reached, by rw [inserted]; rfl,
    (bound_stays_at_record_count _ wl accepted (by decide) _ 2 1 c reached).1⟩

/-- The bound does not follow the inserts. -/
theorem bound_ignores_inserts :
    ¬ ∀ (p : Config) (wl : CoreWorkload), init p = .ok wl → 3 ≤ p.recordCount.val →
      ∀ (ranks : Ranks) (operationCount numThreads : Nat)
        (c : System (Fin numThreads) Shared Thread),
        PhaseReachable wl ranks false operationCount numThreads c →
          c.shared.insertKeySequence.last =
            p.recordCount.val.toNat - 1 + (insertedKeys c.shared.calls).length := by
  intro claimed
  obtain ⟨wl, accepted, c, reached, _, inserted⟩ :=
    mixedConfig_first_insert 3 0 .ordered
  have follows := claimed _ wl accepted (by decide) _ 2 1 c reached
  rw [insertKeySequence_constant reached, inserted,
    (init_initialized _ wl accepted).insertKeySequence_last (by decide)] at follows
  exact absurd follows (by decide)

end YcsbCloud.Guarantees.RunPhase
