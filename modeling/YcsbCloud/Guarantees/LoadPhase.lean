import Mathlib.Algebra.Order.BigOperators.Group.Finset
import YcsbCloud.Source.DelegateClient

/-!
# The load phase

Loading threads draw key numbers from one counter. Under every schedule the
numbers drawn are consecutive from `insertstart`, no thread draws more than its
share, and when all threads are done exactly the shares have been drawn and
inserted.
-/
namespace YcsbCloud.Guarantees.LoadPhase
open Library Library.Interleaving Source Source.CoreWorkload Source.Client Source.DelegateClient

variable {wl : CoreWorkload} {ranks : Ranks} {totalOps numThreads : Nat}
  {c : System (Fin numThreads) Shared Thread}

/-- How many numbers a loading thread has drawn at each position of its loop. -/
def Share (numOps : Nat) (l : Thread) : Prop :=
  match l.position with
  | .loopTest => l.draws = l.i ∧ l.i ≤ numOps
  | .sequenceKey => l.draws = l.i ∧ l.i < numOps
  | .database _ => l.draws = l.i + 1 ∧ l.i < numOps
  | .done => l.draws = numOps
  | .operation | .insertCounter | .keyDraw _ | .keyTest .. => False

theorem share_step {numOps : Nat} {s s' : Shared} {l l' : Thread}
    (share : Share numOps l) (moved : Moves wl ranks true numOps s l s' l') :
    Share numOps l' := by
  cases moved with
  | enter nextReport here more =>
    simp only [Share, here, if_true] at share ⊢
    exact ⟨share.1, more⟩
  | leave here all =>
    simp only [Share, here] at share ⊢
    omega
  | drawSequence values here =>
    simp only [Share, here] at share ⊢
    omega
  | call status call pending here =>
    simp only [Share, here] at share ⊢
    exact share
  | finish oks here =>
    simp only [Share, here] at share ⊢
    omega
  | chooseOperation op here | drawInsert draws here | drawKey op keyNum here drawn
  | rejectKey op keyNum here above | acceptKey op keyNum draws here eligible =>
    simp only [Share, here] at share

theorem share_draws_le {numOps : Nat} {l : Thread} (share : Share numOps l) :
    l.draws ≤ numOps := by
  cases here : l.position <;> simp only [Share, here] at share <;> omega

theorem share_reachable (reached : PhaseReachable wl ranks true totalOps numThreads c)
    (i : Fin numThreads) : Share (totalOps / numThreads) (c.threads i) := by
  refine (reached.each_thread (fun _ => True) (fun _ l => Share (totalOps / numThreads) l)
    trivial (fun _ => ⟨rfl, Nat.zero_le _⟩) ?_ ?_).2 i
  · intro a s l s' l' _ share moved
    exact ⟨trivial, share_step share (delegateClient_moves moved)⟩
  · intro a s l s' l' other _ share moved
    exact share

/-- A key number is drawn by the thread that counts it. -/
theorem draws_balanced {isLoading : Bool} {numOps : Nat} {s s' : Shared} {l l' : Thread}
    (moved : Moves wl ranks isLoading numOps s l s' l') :
    s'.sequenceNumbers.length + l.draws = s.sequenceNumbers.length + l'.draws := by
  cases moved with
  | drawSequence values here =>
    simp only [List.length_append, List.length_singleton]
    omega
  | _ => rfl

/-- As many numbers are drawn as the threads count together. -/
theorem drawn_length (reached : PhaseReachable wl ranks true totalOps numThreads c) :
    c.shared.sequenceNumbers.length = ∑ i, (c.threads i).draws := by
  have balance := reached.conserved (fun s => s.sequenceNumbers.length) Thread.draws
    fun a s l s' l' moved => draws_balanced (delegateClient_moves moved)
  simpa [launch, start] using balance

theorem drawn_length_le (reached : PhaseReachable wl ranks true totalOps numThreads c) :
    c.shared.sequenceNumbers.length ≤ numThreads * (totalOps / numThreads) := by
  rw [drawn_length reached]
  calc
    ∑ i, (c.threads i).draws ≤ ∑ _ : Fin numThreads, totalOps / numThreads :=
      Finset.sum_le_sum fun i _ => share_draws_le (share_reachable reached i)
    _ = numThreads * (totalOps / numThreads) := by simp

theorem final_draws (reached : PhaseReachable wl ranks true totalOps numThreads c)
    (final : Final c) (i : Fin numThreads) : (c.threads i).draws = totalOps / numThreads := by
  have share := share_reachable reached i
  simpa only [Share, final i] using share

theorem final_length (reached : PhaseReachable wl ranks true totalOps numThreads c)
    (final : Final c) :
    c.shared.sequenceNumbers.length = numThreads * (totalOps / numThreads) := by
  rw [drawn_length reached]
  simp [final_draws reached final]

/-- The log of `fetch_add`: under every schedule the counter stands behind the
last number it returned. -/
theorem sequence_logged (bound : wl.keyGenerator.counter < 2 ^ 64) {isLoading : Bool}
    (reached : PhaseReachable wl ranks isLoading totalOps numThreads c) :
    c.shared.keyGenerator.Logged wl.keyGenerator.counter c.shared.sequenceNumbers := by
  refine reached.shared_invariant
    (fun s => s.keyGenerator.Logged wl.keyGenerator.counter s.sequenceNumbers)
    (CounterGenerator.logged_nil _ bound) ?_
  intro a s l s' l' logged moved
  cases delegateClient_moves moved with
  | drawSequence values here => exact logged.next
  | _ => exact logged

theorem drawn_consecutive (fits : wl.keyGenerator.counter + totalOps < 2 ^ 64)
    (reached : PhaseReachable wl ranks true totalOps numThreads c) :
    c.shared.sequenceNumbers = (List.range c.shared.sequenceNumbers.length).map
      (wl.keyGenerator.counter + ·) := by
  have length := drawn_length_le reached
  have quotient := Nat.mul_div_le totalOps numThreads
  exact (sequence_logged (by omega) reached).consecutive (by omega)

theorem mem_drawn (fits : wl.keyGenerator.counter + totalOps < 2 ^ 64)
    (reached : PhaseReachable wl ranks true totalOps numThreads c) (number : Nat) :
    number ∈ c.shared.sequenceNumbers ↔ wl.keyGenerator.counter ≤ number ∧
      number < wl.keyGenerator.counter + c.shared.sequenceNumbers.length := by
  rw [drawn_consecutive fits reached]
  simp only [List.mem_map, List.mem_range, List.length_map, List.length_range]
  constructor
  · rintro ⟨j, below, rfl⟩
    omega
  · intro range
    exact ⟨number - wl.keyGenerator.counter, by omega, by omega⟩

/-- The atomic steps a loading thread has left, four for each operation. -/
def stepsLeft (numOps : Nat) (l : Thread) : Nat :=
  match l.position with
  | .loopTest => 4 * (numOps - l.i) + 1
  | .sequenceKey => 4 * (numOps - l.i)
  | .database pending => 4 * (numOps - l.i) - 2 + pending.length
  | .operation | .insertCounter | .keyDraw _ | .keyTest .. => 0
  | .done => 0

/-- A loading thread that is not done has a step, and the step leaves less. -/
theorem loading_progress (wl : CoreWorkload) (ranks : Ranks) {numOps : Nat} (s : Shared)
    (l : Thread) (share : Share numOps l) (running : l.position ≠ .done) : ∃ s' l',
      delegateClient wl ranks true numOps anyInput s l = some (s', l') ∧
        stepsLeft numOps l' < stepsLeft numOps l := by
  unfold delegateClient
  cases here : l.position with
  | loopTest =>
    simp only [Share, here] at share
    by_cases more : l.i < numOps
    · refine ⟨s, _, if_pos more, ?_⟩
      simp only [stepsLeft, here, if_true]
      omega
    · refine ⟨s, _, if_neg more, ?_⟩
      simp only [stepsLeft, here]
      omega
  | sequenceKey =>
    simp only [Share, here] at share
    refine ⟨_, _, rfl, ?_⟩
    simp only [stepsLeft, here, doInsert, List.length_singleton]
    omega
  | database pending =>
    simp only [Share, here] at share
    cases pending with
    | nil =>
      refine ⟨_, _, rfl, ?_⟩
      simp only [stepsLeft, here, List.length_nil]
      omega
    | cons call pending =>
      refine ⟨_, _, rfl, ?_⟩
      simp only [stepsLeft, here, List.length_cons]
      omega
  | done => exact absurd here running
  | operation | insertCounter | keyDraw op | keyTest op keyNum =>
    simp only [Share, here] at share

/-- Some schedule takes every loading thread to the end of its loop. -/
theorem load_completes (wl : CoreWorkload) (ranks : Ranks) (totalOps numThreads : Nat) :
    ∃ c, PhaseReachable wl ranks true totalOps numThreads c ∧ Final c := by
  have initial : PhaseReachable wl ranks true totalOps numThreads (launch wl numThreads) :=
    ⟨[], [], rfl⟩
  refine Reachable.completes Final
    (fun c => ∑ i, stepsLeft (totalOps / numThreads) (c.threads i)) ?_ initial
  intro c reached unfinished
  obtain ⟨i, running⟩ := not_forall.mp unfinished
  obtain ⟨shared, local', moved, less⟩ := loading_progress wl ranks
    c.shared (c.threads i) (share_reachable reached i) running
  refine ⟨(i, anyInput), _, (interleave_some ..).mpr ⟨shared, local', moved, rfl⟩, ?_⟩
  have balance := sum_update (stepsLeft (totalOps / numThreads)) c.threads i local'
  dsimp only
  omega

/-- Loading under every schedule. The numbers drawn so far are distinct and are
the next ones from the counter's start, each thread within its share; when all
threads are done each has made its share, and the shares make up the record
count exactly when the number of threads divides it. -/
theorem load_draws_each_number_once (wl : CoreWorkload) (ranks : Ranks)
    (recordCount numThreads : Nat) (fits : wl.keyGenerator.counter + recordCount < 2 ^ 64)
    (c : System (Fin numThreads) Shared Thread)
    (reached : PhaseReachable wl ranks true recordCount numThreads c) :
    c.shared.sequenceNumbers.Nodup ∧
    (∀ number, number ∈ c.shared.sequenceNumbers ↔ wl.keyGenerator.counter ≤ number ∧
      number < wl.keyGenerator.counter + c.shared.sequenceNumbers.length) ∧
    c.shared.sequenceNumbers.length = ∑ i, (c.threads i).draws ∧
    (∀ i, (c.threads i).draws ≤ recordCount / numThreads) ∧
    (Final c → (∀ i, (c.threads i).draws = recordCount / numThreads) ∧
      c.shared.sequenceNumbers.length = numThreads * (recordCount / numThreads) ∧
      (c.shared.sequenceNumbers.length = recordCount ↔ numThreads ∣ recordCount)) := by
  refine ⟨?_, mem_drawn fits reached, drawn_length reached, ?_, ?_⟩
  · rw [drawn_consecutive fits reached]
    exact List.Nodup.map (fun a b same => Nat.add_left_cancel same) List.nodup_range
  · intro i
    exact share_draws_le (share_reachable reached i)
  · intro final
    have length := final_length reached final
    refine ⟨final_draws reached final, length, ?_⟩
    rw [length]
    constructor
    · intro whole
      exact ⟨recordCount / numThreads, whole.symm⟩
    · intro divides
      exact Nat.mul_div_cancel' divides

/-- Three records over two threads: both shares are one, and a record is left. -/
theorem load_draws_each_number_once_remainder :
    ∃ wl c, PhaseReachable wl (fun _ _ => true) true 3 2 c ∧ Final c ∧
      c.shared.sequenceNumbers.length = 2 ∧ ¬ c.shared.sequenceNumbers.length = 3 := by
  let p : Config := { recordCount := 3, operationCount := 0 }
  obtain ⟨wl, accepted⟩ : ∃ wl, init p = .ok wl := ⟨_, rfl⟩
  have made := init_initialized p wl accepted
  obtain ⟨c, reached, final⟩ := load_completes wl (fun _ _ => true) 3 2
  obtain ⟨_, _, _, _, ended⟩ := load_draws_each_number_once wl (fun _ _ => true) 3 2
    (by rw [made.keyGenerator]; decide) c reached
  obtain ⟨_, length, whole⟩ := ended final
  exact ⟨wl, c, reached, final, length, fun all => absurd (whole.mp all) (by decide)⟩

/-- Every call of a loading thread inserts the name of a number drawn. -/
def Inserts (wl : CoreWorkload) (numbers : List Nat) (call : Call) : Prop :=
  ∃ number ∈ numbers, call.insertedKey = some (wl.buildKeyName number)

theorem Inserts.grow {numbers : List Nat} {call : Call} (inserts : Inserts wl numbers call)
    (more : List Nat) : Inserts wl (numbers ++ more) call := by
  obtain ⟨number, member, named⟩ := inserts
  exact ⟨number, List.mem_append_left _ member, named⟩

def pendingCalls (l : Thread) : List Call :=
  match l.position with
  | .database pending => pending
  | .loopTest | .sequenceKey | .operation | .insertCounter | .keyDraw _ | .keyTest .. | .done => []

/-- What a move keeps: the calls made stay made, the calls pending are pending or
made, and a number drawn becomes a pending insert. -/
theorem moves_keep {isLoading : Bool} {numOps : Nat} {s s' : Shared} {l l' : Thread}
    (moved : Moves wl ranks isLoading numOps s l s' l') :
    (∀ call ∈ s.calls, call ∈ s'.calls) ∧
    (∀ call ∈ pendingCalls l, call ∈ s'.calls ∨ call ∈ pendingCalls l') ∧
    (∀ number ∈ s'.sequenceNumbers, number ∈ s.sequenceNumbers ∨
      ∃ call ∈ pendingCalls l', call.insertedKey = some (wl.buildKeyName number)) := by
  cases moved with
  | drawSequence values here =>
    refine ⟨fun _ made => made, by simp [pendingCalls, here], ?_⟩
    intro number member
    rcases List.mem_append.mp member with earlier | last
    · exact .inl earlier
    · rw [List.mem_singleton.mp last]
      exact .inr ⟨_, List.mem_singleton.mpr rfl, rfl⟩
  | call status call pending here =>
    refine ⟨fun _ made => List.mem_append_left _ made, ?_, fun _ member => .inl member⟩
    intro waiting member
    simp only [pendingCalls, here, List.mem_cons] at member
    rcases member with rfl | later
    · exact .inl (by simp)
    · exact .inr later
  | enter _ here | leave here | chooseOperation _ here | drawInsert _ here | drawKey _ _ here
  | rejectKey _ _ here | acceptKey _ _ _ here | finish _ here =>
    exact ⟨fun _ made => made, by simp [pendingCalls, here], fun _ member => .inl member⟩

/-- A number drawn has been inserted, or is about to be. -/
theorem drawn_accounted {isLoading : Bool}
    (reached : PhaseReachable wl ranks isLoading totalOps numThreads c) :
    ∀ number ∈ c.shared.sequenceNumbers, ∃ call : Call,
      call.insertedKey = some (wl.buildKeyName number) ∧
        (call ∈ c.shared.calls ∨ ∃ i, call ∈ pendingCalls (c.threads i)) := by
  refine reached.invariant (fun c => ∀ number ∈ c.shared.sequenceNumbers, ∃ call : Call,
    call.insertedKey = some (wl.buildKeyName number) ∧
      (call ∈ c.shared.calls ∨ ∃ i, call ∈ pendingCalls (c.threads i))) ?_ ?_
  · intro number member
    exact absurd member List.not_mem_nil
  · intro s i a shared local' holds moved number member
    obtain ⟨made, pending, drawn⟩ := moves_keep (delegateClient_moves moved)
    rcases drawn number member with earlier | ⟨call, waiting, named⟩
    · obtain ⟨call, named, place⟩ := holds number earlier
      refine ⟨call, named, ?_⟩
      rcases place with before | ⟨j, waiting⟩
      · exact .inl (made call before)
      · by_cases same : j = i
        · subst j
          rcases pending call waiting with now | still
          · exact .inl now
          · exact .inr ⟨i, by simpa only [Function.update_self] using still⟩
        · exact .inr ⟨j, by simpa only [Function.update_of_ne same] using waiting⟩
    · exact ⟨call, named, .inr ⟨i, by simpa only [Function.update_self] using waiting⟩⟩

/-- The calls of a loading thread, made or pending, insert numbers drawn. -/
theorem inserts_step {numOps : Nat} {s s' : Shared} {l l' : Thread} (share : Share numOps l)
    (made : ∀ call ∈ s.calls, Inserts wl s.sequenceNumbers call)
    (pending : ∀ call ∈ pendingCalls l, Inserts wl s.sequenceNumbers call)
    (moved : Moves wl ranks true numOps s l s' l') :
    (∀ call ∈ s'.calls, Inserts wl s'.sequenceNumbers call) ∧
      ∀ call ∈ pendingCalls l', Inserts wl s'.sequenceNumbers call := by
  cases moved with
  | drawSequence values here =>
    refine ⟨fun call before => (made call before).grow _, ?_⟩
    intro call waiting
    rw [List.mem_singleton.mp waiting]
    exact ⟨_, by simp, rfl⟩
  | call status call rest here =>
    simp only [pendingCalls, here, List.mem_cons, forall_eq_or_imp] at pending
    refine ⟨?_, pending.2⟩
    intro other member
    rcases List.mem_append.mp member with before | last
    · exact made other before
    · exact List.mem_singleton.mp last ▸ pending.1
  | enter _ here | leave here | finish _ here => exact ⟨made, by simp [pendingCalls]⟩
  | chooseOperation _ here | drawInsert _ here | drawKey _ _ here | rejectKey _ _ here
  | acceptKey _ _ _ here => simp only [Share, here] at share

theorem moves_sequenceNumbers {isLoading : Bool} {numOps : Nat} {s s' : Shared} {l l' : Thread}
    (moved : Moves wl ranks isLoading numOps s l s' l') :
    ∃ more, s'.sequenceNumbers = s.sequenceNumbers ++ more := by
  cases moved with
  | drawSequence values here => exact ⟨_, rfl⟩
  | _ => exact ⟨[], (List.append_nil _).symm⟩

theorem calls_insert (reached : PhaseReachable wl ranks true totalOps numThreads c) :
    ∀ call ∈ c.shared.calls, Inserts wl c.shared.sequenceNumbers call := by
  refine (reached.each_thread (fun s => ∀ call ∈ s.calls, Inserts wl s.sequenceNumbers call)
    (fun s l => Share (totalOps / numThreads) l ∧
      ∀ call ∈ pendingCalls l, Inserts wl s.sequenceNumbers call)
    (by simp [launch]) (fun _ => ⟨⟨rfl, Nat.zero_le _⟩, by simp [launch, start, pendingCalls]⟩)
    ?_ ?_).1
  · intro a s l s' l' made own moved
    have move := delegateClient_moves moved
    obtain ⟨made', pending'⟩ := inserts_step own.1 made own.2 move
    exact ⟨made', share_step own.1 move, pending'⟩
  · intro a s l s' l' other _ own moved
    obtain ⟨more, grown⟩ := moves_sequenceNumbers (delegateClient_moves moved)
    refine ⟨own.1, fun call waiting => ?_⟩
    rw [grown]
    exact (own.2 call waiting).grow more

/-- What a load phase that has ended inserted: the names of the numbers that the
counter takes from its start to the end of the shares. -/
theorem loaded_keys (bound : wl.keyGenerator.counter < 2 ^ 64)
    (reached : PhaseReachable wl ranks true totalOps numThreads c) (final : Final c)
    (key : Bytes) : key ∈ insertedKeys c.shared.calls ↔
      ∃ j < numThreads * (totalOps / numThreads),
        key = wl.buildKeyName ((wl.keyGenerator.counter + j) % 2 ^ 64) := by
  have drawn := (sequence_logged bound reached).mem
  rw [final_length reached final] at drawn
  rw [insertedKeys, List.mem_filterMap]
  constructor
  · intro ⟨call, made, inserted⟩
    obtain ⟨number, member, named⟩ := calls_insert reached call made
    obtain ⟨j, below, rfl⟩ := (drawn number).mp member
    exact ⟨j, below, Option.some.inj (inserted.symm.trans named)⟩
  · rintro ⟨j, below, rfl⟩
    obtain ⟨call, named, place⟩ := drawn_accounted reached _ ((drawn _).mpr ⟨j, below, rfl⟩)
    rcases place with made | ⟨i, waiting⟩
    · exact ⟨call, made, named⟩
    · simp [pendingCalls, final i] at waiting

/-- Where the counter does not wrap, those numbers are an interval. -/
theorem loaded_keys_interval (fits : wl.keyGenerator.counter + totalOps < 2 ^ 64)
    (reached : PhaseReachable wl ranks true totalOps numThreads c) (final : Final c)
    (key : Bytes) : key ∈ insertedKeys c.shared.calls ↔
      ∃ number, wl.keyGenerator.counter ≤ number ∧
        number < wl.keyGenerator.counter + numThreads * (totalOps / numThreads) ∧
        key = wl.buildKeyName number := by
  have share := Nat.mul_div_le totalOps numThreads
  have unwrapped (j : Nat) (below : j < numThreads * (totalOps / numThreads)) :
      (wl.keyGenerator.counter + j) % 2 ^ 64 = wl.keyGenerator.counter + j :=
    Nat.mod_eq_of_lt (by omega)
  rw [loaded_keys (by omega) reached final]
  constructor
  · rintro ⟨j, below, rfl⟩
    exact ⟨wl.keyGenerator.counter + j, by omega, by omega, by rw [unwrapped j below]⟩
  · rintro ⟨number, lower, upper, rfl⟩
    have below : number - wl.keyGenerator.counter < numThreads * (totalOps / numThreads) := by
      omega
    refine ⟨number - wl.keyGenerator.counter, below, ?_⟩
    rw [unwrapped _ below, Nat.add_sub_cancel' lower]

end YcsbCloud.Guarantees.LoadPhase
