import YcsbCloud.Library.Interleaving
import YcsbCloud.Source.Client

/-!
# The client threads of `ycsbc.cc`

`main` starts the same loop in every thread, over one workload: `DelegateClient`
with a share of the operations, either loading or running transactions. A step
is one atomic access to shared state (a `fetch_add`, a `load`, a database call)
or local work of one thread. The generators' draws, the chosen operation and the
reply of the database are inputs of the step that takes them.
-/
namespace YcsbCloud.Source.DelegateClient
open Library.Interleaving CoreWorkload Client

/-- What the threads share: the workload's counters, `uniform_insert_counter`,
and, for the record, the numbers drawn from the counters that hand out key
numbers and the calls made, all in order. -/
structure Shared where
  keyGenerator : CounterGenerator
  insertKeySequence : CounterGenerator
  uniformInsertCounter : CounterGenerator
  sequenceNumbers : List Nat
  insertNumbers : List Nat
  calls : List Call

/-- Where a thread stands in its loop. -/
inductive Position where
  | loopTest
  | sequenceKey
  | operation
  | insertCounter
  | keyDraw (op : Operation)
  | keyTest (op : Operation) (keyNum : Nat)
  | database (pending : List Call)
  | done
  deriving DecidableEq

/-- The locals of `DelegateClient`, the status of the last call, and the number
of key numbers the thread has drawn from `key_generator_`. -/
structure Thread where
  position : Position
  i : Nat
  oks : Nat
  nextReport : Nat
  status : Status
  draws : Nat

/-- What the environment supplies to a step. -/
structure Input where
  op : Operation
  keyDraw : Nat
  draws : TransactionDraws
  reply : Status

def nextReportAfter (nextReport : Nat) : Nat :=
  if nextReport < 1000 then nextReport + 100
  else if nextReport < 5000 then nextReport + 500
  else if nextReport < 10000 then nextReport + 1000
  else if nextReport < 50000 then nextReport + 5000
  else if nextReport < 100000 then nextReport + 10000
  else if nextReport < 500000 then nextReport + 50000
  else nextReport + 100000

/-- One step of `DelegateClient` with `num_ops` and `is_loading`. -/
def delegateClient (wl : CoreWorkload) (ranks : Ranks) (isLoading : Bool) (numOps : Nat) :
    Local Shared Thread Input := fun input s l =>
  match l.position with
  | .loopTest =>
    if l.i < numOps then
      some (s, { l with
        nextReport := if l.nextReport ≤ l.i then nextReportAfter l.nextReport else l.nextReport
        position := if isLoading then .sequenceKey else .operation })
    else some (s, { l with position := .done })
  | .sequenceKey =>
    let (keyNum, keyGenerator) := s.keyGenerator.next
    some ({ s with
        keyGenerator := keyGenerator
        sequenceNumbers := s.sequenceNumbers ++ [keyNum] },
      { l with
        draws := l.draws + 1
        position := .database (doInsert wl (wl.buildKeyName keyNum) input.draws.values) })
  | .operation =>
    if input.op ∈ wl.opChooser.map Prod.fst then
      some (s, { l with
        position := if input.op = .INSERT then .insertCounter else .keyDraw input.op })
    else none
  | .insertCounter =>
    let (keyNum, uniformInsertCounter) := s.uniformInsertCounter.next
    some ({ s with
        uniformInsertCounter := uniformInsertCounter
        insertNumbers := s.insertNumbers ++ [keyNum] },
      { l with position := .database (transactionInsert wl keyNum input.draws) })
  | .keyDraw op =>
    match wl.keyChooser.next ranks s.insertKeySequence input.keyDraw with
    | none => none
    | some keyNum => some (s, { l with position := .keyTest op keyNum })
  | .keyTest op keyNum =>
    if keyNum > s.insertKeySequence.last then some (s, { l with position := .keyDraw op })
    else if input.draws.InRange wl then
      some (s, { l with
        position := .database (keyedTransaction wl op (wl.buildKeyName keyNum) input.draws) })
    else none
  | .database (call :: pending) =>
    some ({ s with calls := s.calls ++ [call] },
      { l with status := input.reply, position := .database pending })
  | .database [] =>
    some (s, { l with
      oks := l.oks + (if l.status = .kOK then 1 else 0), i := l.i + 1, position := .loopTest })
  | .done => none

/-- A thread before its first iteration. -/
def start : Thread := ⟨.loopTest, 0, 0, 0, .kOK, 0⟩

/-- `uniform_insert_counter(100*10000)`. -/
def kUniformInsertStart : Nat := 100 * 10000

/-- The threads of one phase, over a workload that `Init` has set up. -/
def launch (wl : CoreWorkload) (numThreads : Nat) : System (Fin numThreads) Shared Thread where
  shared := {
    keyGenerator := wl.keyGenerator
    insertKeySequence := wl.insertKeySequence
    uniformInsertCounter := ⟨kUniformInsertStart⟩
    sequenceNumbers := []
    insertNumbers := []
    calls := []
  }
  threads := fun _ => start

/-- A state that some schedule of one phase of `main` reaches: `num_ops` is the
integer quotient. -/
def PhaseReachable (wl : CoreWorkload) (ranks : Ranks) (isLoading : Bool)
    (totalOps numThreads : Nat) (c : System (Fin numThreads) Shared Thread) : Prop :=
  Reachable (delegateClient wl ranks isLoading (totalOps / numThreads)) (launch wl numThreads) c

/-- All threads have left their loops. -/
def Final {numThreads : Nat} (c : System (Fin numThreads) Shared Thread) : Prop :=
  ∀ i, (c.threads i).position = .done

instance {numThreads : Nat} (c : System (Fin numThreads) Shared Thread) : Decidable (Final c) :=
  inferInstanceAs (Decidable (∀ _, _))

/-- The input of a step that takes nothing of interest from it. -/
def anyInput : Input := ⟨.READ, 0, ⟨0, 0, fun _ => ⟨0, 0⟩, 0⟩, .kOK⟩

/-- The moves of a thread, one constructor for each branch of the loop body. -/
inductive Moves (wl : CoreWorkload) (ranks : Ranks) (isLoading : Bool) (numOps : Nat) (s : Shared)
    (l : Thread) : Shared → Thread → Prop where
  | enter (nextReport : Nat) (here : l.position = .loopTest) (more : l.i < numOps) :
    Moves wl ranks isLoading numOps s l s { l with
      nextReport := nextReport, position := if isLoading then .sequenceKey else .operation }
  | leave (here : l.position = .loopTest) (all : numOps ≤ l.i) :
    Moves wl ranks isLoading numOps s l s { l with position := .done }
  | drawSequence (values : Nat → ValueDraw) (here : l.position = .sequenceKey) :
    Moves wl ranks isLoading numOps s l
      { s with
        keyGenerator := s.keyGenerator.next.2
        sequenceNumbers := s.sequenceNumbers ++ [s.keyGenerator.next.1] }
      { l with
        draws := l.draws + 1
        position := .database (doInsert wl (wl.buildKeyName s.keyGenerator.next.1) values) }
  | chooseOperation (op : Operation) (here : l.position = .operation) :
    Moves wl ranks isLoading numOps s l s
      { l with position := if op = .INSERT then .insertCounter else .keyDraw op }
  | drawInsert (draws : TransactionDraws) (here : l.position = .insertCounter) :
    Moves wl ranks isLoading numOps s l
      { s with
        uniformInsertCounter := s.uniformInsertCounter.next.2
        insertNumbers := s.insertNumbers ++ [s.uniformInsertCounter.next.1] }
      { l with position := .database (transactionInsert wl s.uniformInsertCounter.next.1 draws) }
  | drawKey (op : Operation) (keyNum : Nat) (here : l.position = .keyDraw op)
      (drawn : wl.keyChooser.canDraw ranks s.insertKeySequence keyNum) :
    Moves wl ranks isLoading numOps s l s { l with position := .keyTest op keyNum }
  | rejectKey (op : Operation) (keyNum : Nat) (here : l.position = .keyTest op keyNum)
      (above : s.insertKeySequence.last < keyNum) :
    Moves wl ranks isLoading numOps s l s { l with position := .keyDraw op }
  | acceptKey (op : Operation) (keyNum : Nat) (draws : TransactionDraws)
      (here : l.position = .keyTest op keyNum) (eligible : keyNum ≤ s.insertKeySequence.last) :
    Moves wl ranks isLoading numOps s l s
      { l with position := .database (keyedTransaction wl op (wl.buildKeyName keyNum) draws) }
  | call (status : Status) (call : Call) (pending : List Call)
      (here : l.position = .database (call :: pending)) :
    Moves wl ranks isLoading numOps s l { s with calls := s.calls ++ [call] }
      { l with status := status, position := .database pending }
  | finish (oks : Nat) (here : l.position = .database []) :
    Moves wl ranks isLoading numOps s l s
      { l with oks := oks, i := l.i + 1, position := .loopTest }

/-- Every step is one of the moves. -/
theorem delegateClient_moves {wl : CoreWorkload} {ranks : Ranks} {isLoading : Bool} {numOps : Nat}
    {input : Input} {s s' : Shared} {l l' : Thread}
    (moved : delegateClient wl ranks isLoading numOps input s l = some (s', l')) :
    Moves wl ranks isLoading numOps s l s' l' := by
  unfold delegateClient at moved
  split at moved
  next here =>
    split at moved
    next more =>
      cases moved
      exact .enter _ here more
    next all =>
      cases moved
      exact .leave here (Nat.le_of_not_lt all)
  next here =>
    cases moved
    exact .drawSequence _ here
  next here =>
    split at moved
    · cases moved
      exact .chooseOperation _ here
    · cases moved
  next here =>
    cases moved
    exact .drawInsert _ here
  next op here =>
    split at moved
    · cases moved
    next keyNum drawn =>
      cases moved
      exact .drawKey op keyNum here ⟨_, drawn⟩
  next op keyNum here =>
    split at moved
    next above =>
      cases moved
      exact .rejectKey op keyNum here above
    next eligible =>
      split at moved
      · cases moved
        exact .acceptKey op keyNum _ here (Nat.le_of_not_lt eligible)
      · cases moved
  next call pending here =>
    cases moved
    exact .call _ call pending here
  next here =>
    cases moved
    exact .finish _ here
  · cases moved

end YcsbCloud.Source.DelegateClient
