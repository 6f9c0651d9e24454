import Mathlib.Algebra.Ring.Int.Defs
import YcsbCloud.Source.IopsReport

/-!
# What the IOPS report accounts for

`latency_hiccup` loads the count and resets it in two steps. A transaction counted
between them is neither printed nor left in `qps`, and whatever `qps` held when
the object was made is reported as if it had been counted. Apart from that, every
increment is in a printed value or still in `qps`.
-/
namespace YcsbCloud.Guarantees.IopsReport
open Library.Machine Library.Interleaving Source.IopsReport

variable {numThreads : Nat}

/-- The values printed so far and the current count add up to the increments. -/
def Accounted (s : Shared) : Prop :=
  (s.printed.map Int64.toInt).sum + s.qps.toInt = s.increments

instance (s : Shared) : Decidable (Accounted s) :=
  inferInstanceAs (Decidable (_ = _))

/-- No client is inside `latency_hiccup`. -/
def NoHiccup (c : System (Fin numThreads) Shared Thread) : Prop :=
  ∀ i, (c.threads i).position ≠ .hiccupLoad ∧ (c.threads i).position ≠ .hiccupStore

instance (c : System (Fin numThreads) Shared Thread) : Decidable (NoHiccup c) :=
  inferInstanceAs (Decidable (∀ _, _))

/-- Some client has printed the count and not yet reset it. -/
def ResetPending (c : System (Fin numThreads) Shared Thread) : Prop :=
  ∃ i, (c.threads i).position = .hiccupStore

instance (c : System (Fin numThreads) Shared Thread) : Decidable (ResetPending c) :=
  inferInstanceAs (Decidable (∃ _, _))

/-- The step, if it is a `qps++`, comes while no reset is pending and does not wrap
around. -/
def KeepsCount (c : System (Fin numThreads) Shared Thread) (event : Fin numThreads × Nat) : Prop :=
  (c.threads event.1).position = .recordTime → ¬ ResetPending c ∧ c.shared.qps ≠ Int64.maxValue

instance (c : System (Fin numThreads) Shared Thread) (event : Fin numThreads × Nat) :
    Decidable (KeepsCount c event) :=
  inferInstanceAs (Decidable (_ → _))

/-- Clients are numbered by their index, and only number 0 is inside
`latency_hiccup`. -/
def Numbered (c : System (Fin numThreads) Shared Thread) : Prop :=
  ∀ i, (c.threads i).num = i ∧
    ((c.threads i).position = .hiccupLoad ∨ (c.threads i).position = .hiccupStore →
      (c.threads i).num = 0)

theorem numbered_launch (qps : Int64) : Numbered (launch qps numThreads) := by
  intro i
  exact ⟨rfl, by simp [launch]⟩

/-- A client keeps its number, and enters `latency_hiccup` only as number 0. -/
theorem moves_num {s s' : Shared} {l l' : Thread} (moved : Moves s l s' l')
    (client : l.position = .hiccupLoad ∨ l.position = .hiccupStore → l.num = 0) :
    l'.num = l.num ∧ (l'.position = .hiccupLoad ∨ l'.position = .hiccupStore → l'.num = 0) := by
  cases moved with
  | own position i here outside entered =>
    refine ⟨rfl, ?_⟩
    intro inside
    rcases inside with load | store
    · exact entered load
    · exact absurd store outside
  | recordTime here => exact ⟨rfl, by simp [Thread.at]⟩
  | hiccupLoad here => exact ⟨rfl, fun _ => client (.inl here)⟩
  | hiccupStore here => exact ⟨rfl, by simp [Thread.nextIteration]⟩

theorem numbered_step {c : System (Fin numThreads) Shared Thread} (numbered : Numbered c)
    {i : Fin numThreads} {shared : Shared} {l : Thread}
    (moved : Moves c.shared (c.threads i) shared l) :
    Numbered ⟨shared, Function.update c.threads i l⟩ := by
  intro j
  dsimp only
  by_cases same : j = i
  · subst j
    rw [Function.update_self]
    obtain ⟨num, client⟩ := moves_num moved (numbered i).2
    exact ⟨num.trans (numbered i).1, client⟩
  · rw [Function.update_of_ne same]
    exact numbered j

/-- While one client is inside `latency_hiccup`, no other client's reset is
pending. -/
theorem Numbered.only {c : System (Fin numThreads) Shared Thread} (numbered : Numbered c)
    {i j : Fin numThreads}
    (here : (c.threads i).position = .hiccupLoad ∨ (c.threads i).position = .hiccupStore)
    (store : (c.threads j).position = .hiccupStore) : j = i := by
  have first := (numbered i).2 here
  have second := (numbered j).2 (.inr store)
  rw [(numbered i).1] at first
  rw [(numbered j).1] at second
  exact Fin.ext (second.trans first.symm)

/-- What a state accounts for, less what was counted. A printed count that waits
for its reset is not counted twice. -/
def balance (c : System (Fin numThreads) Shared Thread) : Int :=
  (c.shared.printed.map Int64.toInt).sum + (if ResetPending c then 0 else c.shared.qps.toInt) -
    c.shared.increments

theorem NoHiccup.balance_eq_zero {c : System (Fin numThreads) Shared Thread} (quiet : NoHiccup c) :
    balance c = 0 ↔ Accounted c.shared := by
  have settled : ¬ ResetPending c := fun ⟨i, store⟩ => (quiet i).2 store
  rw [balance, if_neg settled, Accounted, Int.sub_eq_zero]

theorem noHiccup_launch (qps : Int64) : NoHiccup (launch qps numThreads) := by
  intro i
  simp [launch]

theorem balance_launch (qps : Int64) : balance (launch qps numThreads) = qps.toInt := by
  have settled : ¬ ResetPending (launch qps numThreads) := fun ⟨i, store⟩ =>
    (noHiccup_launch qps i).2 store
  rw [balance, if_neg settled]
  simp [launch, constructed]

/-- A move that neither starts nor ends a pending reset leaves it as it is. -/
theorem resetPending_update {c : System (Fin numThreads) Shared Thread} {i : Fin numThreads}
    {shared : Shared} {l : Thread} (before : (c.threads i).position ≠ .hiccupStore)
    (after : l.position ≠ .hiccupStore) :
    ResetPending ⟨shared, Function.update c.threads i l⟩ ↔ ResetPending c := by
  refine exists_congr fun j => ?_
  dsimp only
  by_cases same : j = i
  · subst j
    rw [Function.update_self]
    exact iff_of_false after before
  · rw [Function.update_of_ne same]

theorem toInt_increment (qps : Int64) (room : qps ≠ Int64.maxValue) :
    (qps + 1).toInt = qps.toInt + 1 := by
  have below := Int64.toInt_lt qps
  have above := Int64.le_toInt qps
  have notFull : qps.toInt ≠ 2 ^ 63 - 1 := by
    intro full
    exact room (Int64.toInt_inj.mp (full.trans Int64.toInt_maxValue.symm))
  rw [Int64.toInt_add, show (1 : Int64).toInt = 1 from rfl,
    Int.bmod_eq_of_le_mul_two (by omega) (by omega)]

/-- A counted transaction is lost to a pending reset, or raises `qps` by what it
raises the increments, or wraps it around. -/
theorem balance_recordTime {c next : System (Fin numThreads) Shared Thread}
    (counted : next.shared = c.shared.recordTime) (same : ResetPending next ↔ ResetPending c) :
    (¬ ResetPending c ∧ c.shared.qps ≠ Int64.maxValue → balance next = balance c) ∧
      (¬ (¬ ResetPending c ∧ c.shared.qps ≠ Int64.maxValue) → balance next < balance c) := by
  simp only [balance, counted, same, Shared.recordTime]
  by_cases pending : ResetPending c
  · simp only [pending, if_true]
    refine ⟨fun keeps => absurd trivial keeps.1, ?_⟩
    intro _
    omega
  · simp only [pending, if_false]
    by_cases full : c.shared.qps = Int64.maxValue
    · refine ⟨fun keeps => absurd full keeps.2, ?_⟩
      intro _
      rw [full, show (Int64.maxValue + 1).toInt = -2 ^ 63 from rfl, Int64.toInt_maxValue]
      omega
    · refine ⟨?_, fun lost => absurd ⟨not_false, full⟩ lost⟩
      intro _
      rw [toInt_increment _ full]
      omega

/-- The load puts the count among the printed values. -/
theorem balance_hiccupLoad {c : System (Fin numThreads) Shared Thread} (numbered : Numbered c)
    {i : Fin numThreads} (here : (c.threads i).position = .hiccupLoad) :
    balance ⟨c.shared.hiccupLoad,
      Function.update c.threads i ((c.threads i).at .hiccupStore)⟩ = balance c := by
  have before : ¬ ResetPending c := by
    intro pending
    obtain ⟨j, store⟩ := pending
    rw [numbered.only (.inl here) store, here] at store
    cases store
  have after : ResetPending ⟨c.shared.hiccupLoad,
      Function.update c.threads i ((c.threads i).at .hiccupStore)⟩ := ⟨i, by simp [Thread.at]⟩
  rw [balance, balance, if_pos after, if_neg before]
  simp only [Shared.hiccupLoad, List.map_append, List.map_cons, List.map_nil, List.sum_append,
    List.sum_cons, List.sum_nil]
  omega

/-- The store takes away what was printed, and whatever came after it. -/
theorem balance_hiccupStore {c : System (Fin numThreads) Shared Thread} (numbered : Numbered c)
    {i : Fin numThreads} (here : (c.threads i).position = .hiccupStore) :
    balance ⟨c.shared.hiccupStore,
      Function.update c.threads i (c.threads i).nextIteration⟩ = balance c := by
  have before : ResetPending c := ⟨i, here⟩
  have after : ¬ ResetPending ⟨c.shared.hiccupStore,
      Function.update c.threads i (c.threads i).nextIteration⟩ := by
    intro pending
    obtain ⟨j, store⟩ := pending
    dsimp only at store
    by_cases mover : j = i
    · rw [mover, Function.update_self] at store
      cases store
    · rw [Function.update_of_ne mover] at store
      exact mover (numbered.only (.inr here) store)
  rw [balance, balance, if_neg after, if_pos before]
  simp [Shared.hiccupStore]

/-- One step keeps the balance or, when it is a `qps++` that is lost or wraps
around, lowers it. -/
theorem balance_step {c next : System (Fin numThreads) Shared Thread} (numbered : Numbered c)
    {event : Fin numThreads × Nat} {shared : Shared} {l : Thread}
    (moved : Moves c.shared (c.threads event.1) shared l)
    (becomes : next = ⟨shared, Function.update c.threads event.1 l⟩) :
    (KeepsCount c event → balance next = balance c) ∧
      (¬ KeepsCount c event → balance next < balance c) := by
  have uncounted (other : (c.threads event.1).position ≠ .recordTime)
      (unchanged : balance next = balance c) : (KeepsCount c event → balance next = balance c) ∧
        (¬ KeepsCount c event → balance next < balance c) :=
    ⟨fun _ => unchanged, fun lost => absurd (fun counting => absurd counting other) lost⟩
  subst next
  cases moved with
  | own position k here outside entered =>
    have elsewhere : (c.threads event.1).position ≠ .recordTime ∧
        (c.threads event.1).position ≠ .hiccupStore := by
      rcases here with test | clock
      · simp [test]
      · simp [clock]
    have same : ResetPending ⟨c.shared, Function.update c.threads event.1
        ⟨(c.threads event.1).num, position, k⟩⟩ ↔ ResetPending c :=
      resetPending_update elsewhere.2 outside
    refine uncounted elsewhere.1 ?_
    simp only [balance, same]
  | recordTime here =>
    have same : ResetPending ⟨c.shared.recordTime, Function.update c.threads event.1
        ((c.threads event.1).at .clock)⟩ ↔ ResetPending c :=
      resetPending_update (by simp [here]) (by simp [Thread.at])
    obtain ⟨kept, lost⟩ := balance_recordTime rfl same
    exact ⟨fun keeps => kept (keeps here), fun loses => lost fun keeps => loses fun _ => keeps⟩
  | hiccupLoad here => exact uncounted (by simp [here]) (balance_hiccupLoad numbered here)
  | hiccupStore here => exact uncounted (by simp [here]) (balance_hiccupStore numbered here)

/-- Over a run the balance never rises, and stays what it is exactly when every
`qps++` of the run keeps the count. -/
theorem balance_run {isLoading : Bool} {numOps : Nat}
    {c final : System (Fin numThreads) Shared Thread} {schedule : List (Fin numThreads × Nat)}
    {outs : List Unit} (numbered : Numbered c)
    (ran : run (clients isLoading numOps numThreads) c schedule = some (final, outs)) :
    balance final ≤ balance c ∧
      (balance final = balance c ↔
        Along (clients isLoading numOps numThreads) KeepsCount c schedule) := by
  have stepped : ∀ s event next out,
      clients isLoading numOps numThreads s event = some (next, out) →
      ∃ shared l, Moves s.shared (s.threads event.1) shared l ∧
        next = ⟨shared, Function.update s.threads event.1 l⟩ := by
    intro s event next out moved
    obtain ⟨shared, l, one, becomes⟩ := (interleave_some ..).mp moved
    exact ⟨shared, l, delegateClient_moves one, becomes⟩
  refine level_along Numbered balance ?_ ?_ ?_ numbered ran
  · intro s event next out numbered moved
    obtain ⟨shared, l, one, becomes⟩ := stepped s event next out moved
    exact becomes ▸ numbered_step numbered one
  · intro s event next out numbered moved
    obtain ⟨shared, l, one, becomes⟩ := stepped s event next out moved
    exact (balance_step numbered one becomes).1
  · intro s event next out numbered moved
    obtain ⟨shared, l, one, becomes⟩ := stepped s event next out moved
    exact (balance_step numbered one becomes).2

/-- In a run of any number of clients that ends with no report in progress, every
state without one accounts for all increments if and only if `qps` started at zero
and no `qps++` of the run came between the load and the store of a report, or
wrapped around. -/
theorem report_accounts_iff (isLoading : Bool) (numOps : Nat) (qps : Int64)
    (schedule : List (Fin numThreads × Nat)) (c : System (Fin numThreads) Shared Thread)
    (outs : List Unit)
    (ran : run (clients isLoading numOps numThreads) (launch qps numThreads) schedule =
      some (c, outs))
    (quiet : NoHiccup c) :
    (∀ earlier later d outs', schedule = earlier ++ later →
      run (clients isLoading numOps numThreads) (launch qps numThreads) earlier = some (d, outs') →
      NoHiccup d → Accounted d.shared) ↔
    qps = 0 ∧
      Along (clients isLoading numOps numThreads) KeepsCount (launch qps numThreads) schedule := by
  constructor
  · intro accounted
    have first := accounted [] schedule _ [] rfl rfl (noHiccup_launch qps)
    rw [← (noHiccup_launch qps).balance_eq_zero, balance_launch] at first
    have last := accounted schedule [] c outs (List.append_nil _).symm ran quiet
    rw [← quiet.balance_eq_zero] at last
    refine ⟨Int64.toInt_inj.mp first, (balance_run (numbered_launch qps) ran).2.mp ?_⟩
    rw [last, balance_launch, first]
  · intro condition earlier later d outs' split part calm
    obtain ⟨zero, keeps⟩ := condition
    rw [split, along_append part] at keeps
    have level := (balance_run (numbered_launch qps) part).2.mpr keeps.1
    rw [balance_launch, zero] at level
    exact calm.balance_eq_zero.mp level

/-- Two clients in turn: client 1 comes to its second count while client 0 prints, and
counts behind the reset. There are four transactions and two reports. -/
theorem report_accounts_turns :
    ∃ (schedule : List (Fin 2 × Nat)) (c : System (Fin 2) Shared Thread) (outs : List Unit),
      run (clients false 2 2) (launch 0 2) schedule = some (c, outs) ∧
      c.shared.increments = 4 ∧ c.shared.printed = [2, 2] ∧
      ∀ earlier later d outs', schedule = earlier ++ later →
        run (clients false 2 2) (launch 0 2) earlier = some (d, outs') → NoHiccup d →
          Accounted d.shared := by
  refine ⟨[(0, 0), (1, 0), (0, 0), (1, 0), (0, 1000000), (1, 0), (1, 0), (0, 0), (0, 0), (1, 0),
    (0, 0), (0, 0), (1, 0), (0, 1000000), (0, 0), (1, 0), (0, 0)], _, _,
    Option.eq_some_of_isSome rfl, by decide, by decide, ?_⟩
  exact (report_accounts_iff false 2 0 _ _ _ (Option.eq_some_of_isSome rfl) (by decide)).mpr
    ⟨rfl, by decide⟩

/-- Client 0 prints one increment, client 1 counts a second one, and client 0
resets both. -/
theorem increment_before_reset_lost :
    ¬ ∀ (numThreads numOps : Nat) (qps : Int64) (c : System (Fin numThreads) Shared Thread),
      Reachable (delegateClient false numOps) (launch qps numThreads) c → NoHiccup c →
        Accounted c.shared := by
  intro claimed
  have schedule_runs := Option.eq_some_of_isSome (o := run (clients false 1 2) (launch 0 2)
    [(0, 0), (0, 0), (0, 1000000), (0, 0), (1, 0), (1, 0), (0, 0)]) rfl
  have accounted := claimed 2 1 0 _ ⟨_, _, schedule_runs⟩ (by decide)
  exact absurd accounted (by decide)

end YcsbCloud.Guarantees.IopsReport
