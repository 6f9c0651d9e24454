import YcsbCloud.Guarantees.LoadPhase
import YcsbCloud.Guarantees.RunPhase

/-!
# The key ranges of the two phases

Loading numbers its keys from `insertstart`, transactions choose below
`recordcount`, and insert transactions count from a start of their own. What
holds between the three ranges depends on the configuration; that nothing ever
moves the bound of `NextTransactionKey` does not.
-/
namespace YcsbCloud.Guarantees.KeyRanges
open Library Library.Interleaving Source Source.CoreWorkload Source.Client Source.DelegateClient
open LoadPhase RunPhase

variable {wl : CoreWorkload} {ranks : Ranks} {totalOps numThreads : Nat}
  {c : System (Fin numThreads) Shared Thread}

/-- Every key that a run phase can request was inserted by the load phase before
it, under every schedule of both. -/
def RequestsLoaded (wl : CoreWorkload) (ranks : Ranks) (recordCount numThreads : Nat) : Prop :=
  ∀ loaded : System (Fin numThreads) Shared Thread,
    PhaseReachable wl ranks true recordCount numThreads loaded → Final loaded →
    ∀ (operationCount : Nat) (c : System (Fin numThreads) Shared Thread),
      PhaseReachable wl ranks false operationCount numThreads c →
      ∀ key, wl.nextTransactionKeyReturns ranks c.shared.insertKeySequence key →
        key ∈ insertedKeys loaded.shared.calls

/-- The key numbers below `recordcount` that the chooser draws lie in the range
that the shares of the loading threads cover. -/
def ChoosesLoaded (p : Config) (wl : CoreWorkload) (ranks : Ranks) (numThreads : Nat) : Prop :=
  ∀ keyNum, wl.keyChooser.canDraw ranks wl.insertKeySequence keyNum →
    keyNum < p.recordCount.val.toNat → p.insertStart.val.toNat ≤ keyNum ∧
      keyNum < p.insertStart.val.toNat + numThreads * (p.recordCount.val.toNat / numThreads)

theorem choosesLoaded_of_dvd (p : Config) (wl : CoreWorkload) (ranks : Ranks) (numThreads : Nat)
    (fromZero : p.insertStart.val = 0) (divides : numThreads ∣ p.recordCount.val.toNat) :
    ChoosesLoaded p wl ranks numThreads := by
  intro keyNum _ below
  rw [fromZero, Nat.mul_div_cancel' divides]
  exact ⟨Nat.zero_le _, by simpa using below⟩

theorem choosesLoaded_uniform_iff (p : Config) (wl : CoreWorkload) (made : Initialized p wl)
    (ranks : Ranks) (numThreads : Nat) (uniform : p.requestDistribution = .uniform)
    (records : 1 ≤ p.recordCount.val) (start : 0 ≤ p.insertStart.val) :
    ChoosesLoaded p wl ranks numThreads ↔
      p.insertStart.val = 0 ∧ numThreads ∣ p.recordCount.val.toNat := by
  constructor
  · intro chooses
    have drawable (keyNum : Nat) (below : keyNum < p.recordCount.val.toNat) :
        wl.keyChooser.canDraw ranks wl.insertKeySequence keyNum := by
      rw [made.uniform_keyChooser uniform records, KeyChooser.canDraw_uniform]
      exact ⟨Nat.zero_le _, by dsimp only; omega⟩
    have first := chooses 0 (drawable 0 (by omega)) (by omega)
    have last := chooses (p.recordCount.val.toNat - 1) (drawable _ (by omega)) (by omega)
    have share := Nat.mul_div_le p.recordCount.val.toNat numThreads
    exact ⟨by omega, ⟨_, (by omega :
      p.recordCount.val.toNat = numThreads * (p.recordCount.val.toNat / numThreads))⟩⟩
  · intro ⟨fromZero, divides⟩
    exact choosesLoaded_of_dvd p wl ranks numThreads fromZero divides

/-- Where every rank below the number of items can come up, the latest chooser
draws all records but the first. -/
theorem choosesLoaded_latest_iff (p : Config) (wl : CoreWorkload) (made : Initialized p wl)
    (ranks : Ranks) (numThreads : Nat) (latest : p.requestDistribution = .latest)
    (all : ∀ items rank, ranks items rank = true ↔ rank < items)
    (records : 3 ≤ p.recordCount.val) (start : 0 ≤ p.insertStart.val) :
    ChoosesLoaded p wl ranks numThreads ↔
      p.insertStart.val ≤ 1 ∧ p.recordCount.val.toNat ≤
        p.insertStart.val.toNat + numThreads * (p.recordCount.val.toNat / numThreads) := by
  obtain ⟨⟨zipfian, chooser⟩, bounds⟩ := made.latest_keyChooser latest
  have last := made.insertKeySequence_last (by omega)
  have upper := p.recordCount.property.2
  have drawable (keyNum : Nat) : wl.keyChooser.canDraw ranks wl.insertKeySequence keyNum ↔
      1 ≤ keyNum ∧ keyNum < p.recordCount.val.toNat := by
    rw [chooser]
    simp only [KeyChooser.canDraw, KeyChooser.next, Option.ite_none_right_eq_some, all,
      Option.some.injEq]
    constructor
    · rintro ⟨rank, ⟨_, _, below⟩, rfl⟩
      rw [subU64_of_le _ _ (by omega) (by omega)]
      omega
    · intro range
      refine ⟨wl.insertKeySequence.last - keyNum, ⟨bounds.1, bounds.2, by omega⟩, ?_⟩
      rw [subU64_of_le _ _ (by omega) (by omega)]
      omega
  constructor
  · intro chooses
    have first := chooses 1 ((drawable 1).mpr (by omega)) (by omega)
    have newest := chooses (p.recordCount.val.toNat - 1) ((drawable _).mpr (by omega)) (by omega)
    omega
  · intro covered keyNum drawn below
    have range := (drawable keyNum).mp drawn
    omega

theorem returned_loaded (p : Config) (wl : CoreWorkload) (made : Initialized p wl)
    (records : 1 ≤ p.recordCount.val) (start : 0 ≤ p.insertStart.val)
    (chooses : ChoosesLoaded p wl ranks numThreads)
    (loaded : System (Fin numThreads) Shared Thread)
    (reached : PhaseReachable wl ranks true p.recordCount.val.toNat numThreads loaded)
    (final : Final loaded) (key : Bytes)
    (returned : wl.nextTransactionKeyReturns ranks wl.insertKeySequence key) :
    key ∈ insertedKeys loaded.shared.calls := by
  obtain ⟨keyNum, drawn, eligible, rfl⟩ := returned
  rw [made.insertKeySequence_last records] at eligible
  have origin := made.keyGenerator_start start
  have lower := p.insertStart.property.2
  have upper := p.recordCount.property.2
  rw [loaded_keys_interval (by omega) reached final]
  refine ⟨keyNum, ?_⟩
  rw [origin]
  exact ⟨(chooses keyNum drawn (by omega)).1, (chooses keyNum drawn (by omega)).2, rfl⟩

/-- Names are distinct below `2 ^ 32`, so a loaded name is the name of a loaded number. -/
theorem chooses_of_requests (p : Config) (wl : CoreWorkload) (made : Initialized p wl)
    (records : 1 ≤ p.recordCount.val) (start : 0 ≤ p.insertStart.val)
    (requests : RequestsLoaded wl ranks p.recordCount.val.toNat numThreads) :
    ChoosesLoaded p wl ranks numThreads := by
  intro keyNum drawn below
  obtain ⟨loaded, reached, final⟩ := load_completes wl ranks p.recordCount.val.toNat numThreads
  have returned : wl.nextTransactionKeyReturns ranks
      (launch wl numThreads).shared.insertKeySequence (wl.buildKeyName keyNum) := by
    refine ⟨keyNum, drawn, ?_, rfl⟩
    have last := made.insertKeySequence_last records
    simp only [launch, last]
    omega
  have inserted := requests loaded reached final 0 (launch wl numThreads) ⟨[], [], rfl⟩ _ returned
  have origin := made.keyGenerator_start start
  have lower := p.insertStart.property.2
  have upper := p.recordCount.property.2
  obtain ⟨number, atLeast, before, named⟩ :=
    (loaded_keys_interval (by omega) reached final _).mp inserted
  have share := Nat.mul_div_le p.recordCount.val.toNat numThreads
  have same := wl.buildKeyName_injOn keyNum number (by omega) (by omega) named
  rw [same, ← origin]
  exact ⟨atLeast, before⟩

/-- The run phase stays inside what loading stored exactly when its chooser does.
Starting at zero with a record count that the threads share evenly is enough,
and under the uniform distribution it is needed; the latest chooser leaves the
first record out, and loading can leave out as much. -/
theorem requests_loaded_iff_chooses_loaded (p : Config) (wl : CoreWorkload)
    (accepted : init p = .ok wl) (records : 3 ≤ p.recordCount.val) (start : 0 ≤ p.insertStart.val)
    (ranks : Ranks) (numThreads : Nat) :
    (RequestsLoaded wl ranks p.recordCount.val.toNat numThreads ↔
      ChoosesLoaded p wl ranks numThreads) ∧
    (ChoosesLoaded p wl ranks numThreads → ∀ loaded : System (Fin numThreads) Shared Thread,
      PhaseReachable wl ranks true p.recordCount.val.toNat numThreads loaded → Final loaded →
      ∀ (operationCount : Nat) (c : System (Fin numThreads) Shared Thread),
        PhaseReachable wl ranks false operationCount numThreads c →
        ∀ key ∈ requestedKeys c.shared.calls, key ∈ insertedKeys loaded.shared.calls) ∧
    (p.insertStart.val = 0 → numThreads ∣ p.recordCount.val.toNat →
      ChoosesLoaded p wl ranks numThreads) ∧
    (p.requestDistribution = .uniform → (ChoosesLoaded p wl ranks numThreads ↔
      p.insertStart.val = 0 ∧ numThreads ∣ p.recordCount.val.toNat)) ∧
    (p.requestDistribution = .latest → (∀ items rank, ranks items rank = true ↔ rank < items) →
      (ChoosesLoaded p wl ranks numThreads ↔
        p.insertStart.val ≤ 1 ∧ p.recordCount.val.toNat ≤
          p.insertStart.val.toNat + numThreads * (p.recordCount.val.toNat / numThreads))) := by
  have made := init_initialized p wl accepted
  refine ⟨⟨?_, ?_⟩, ?_, choosesLoaded_of_dvd p wl ranks numThreads, ?_, ?_⟩
  · exact chooses_of_requests p wl made (by omega) start
  · intro chooses loaded reached final operationCount c running key returned
    rw [insertKeySequence_constant running] at returned
    exact returned_loaded p wl made (by omega) start chooses loaded reached final key returned
  · intro chooses loaded reached final operationCount c running key requested
    exact returned_loaded p wl made (by omega) start chooses loaded reached final key
      (requested_returned running key requested)
  · intro uniform
    exact choosesLoaded_uniform_iff p wl made ranks numThreads uniform (by omega) start
  · intro latest all
    exact choosesLoaded_latest_iff p wl made ranks numThreads latest all records start

/-- Four records, loaded and requested by two threads. -/
theorem requests_loaded_iff_chooses_loaded_even : ∃ wl,
    init (mixedConfig 4 0 .hashed) = .ok wl ∧
      RequestsLoaded wl (fun _ _ => true) 4 2 := by
  obtain ⟨wl, accepted⟩ := mixedConfig_accepted 4 0 .hashed
  obtain ⟨requests, _, even, _⟩ := requests_loaded_iff_chooses_loaded _ wl accepted (by decide)
    (by decide) (fun _ _ => true) 2
  exact ⟨wl, accepted, requests.mpr (even rfl (by decide))⟩

/-- Three records and two threads: the third record is requested and not loaded. -/
theorem requests_not_loaded :
    ¬ ∀ (p : Config) (wl : CoreWorkload), init p = .ok wl → 3 ≤ p.recordCount.val →
      0 ≤ p.insertStart.val → ∀ (ranks : Ranks) (numThreads : Nat), 1 ≤ numThreads →
        RequestsLoaded wl ranks p.recordCount.val.toNat numThreads := by
  intro claimed
  obtain ⟨wl, accepted⟩ := mixedConfig_accepted 3 0 .ordered
  have made := init_initialized _ wl accepted
  have requests := claimed _ wl accepted (by decide) (by decide) (fun _ _ => true) 2 (by decide)
  have chooses := chooses_of_requests _ wl made (by decide) (by decide) requests
  obtain ⟨_, even⟩ :=
    (choosesLoaded_uniform_iff _ wl made _ 2 rfl (by decide) (by decide)).mp chooses
  exact absurd even (by decide)

/-- The key numbers whose names loading inserts or transactions can request. -/
def KeyNumber (p : Config) (wl : CoreWorkload) (ranks : Ranks) (numThreads keyNum : Nat) : Prop :=
  (wl.keyChooser.canDraw ranks wl.insertKeySequence keyNum ∧
    keyNum < p.recordCount.val.toNat) ∨
  ∃ j < numThreads * (p.recordCount.val.toNat / numThreads),
    keyNum = (toU64 p.insertStart.val + j) % 2 ^ 64

/-- None of the values that the insert counter takes over so many inserts is the
number that some key name prints. -/
def CounterApart (p : Config) (wl : CoreWorkload) (ranks : Ranks) (numThreads inserts : Nat) :
    Prop :=
  ∀ j < inserts, ∀ keyNum, KeyNumber p wl ranks numThreads keyNum →
    wl.keyNameNumber keyNum ≠ (kUniformInsertStart + j) % 2 ^ 64

/-- What the start of the insert counter is for: an insert transaction produces
no key that the load phase inserted or that `NextTransactionKey` returns. -/
def InsertsFresh (wl : CoreWorkload) (ranks : Ranks)
    (loaded c : System (Fin numThreads) Shared Thread) : Prop :=
  ∀ number ∈ c.shared.insertNumbers,
    user ++ stdToString number ∉ insertedKeys loaded.shared.calls ∧
    user ++ stdToString number ∉ requestedKeys c.shared.calls ∧
    ¬ wl.nextTransactionKeyReturns ranks c.shared.insertKeySequence (user ++ stdToString number)

theorem insertsFresh_of_apart (p : Config) (wl : CoreWorkload) (made : Initialized p wl)
    (records : 1 ≤ p.recordCount.val) (inserts : Nat)
    (apart : CounterApart p wl ranks numThreads inserts)
    (loaded : System (Fin numThreads) Shared Thread)
    (loading : PhaseReachable wl ranks true p.recordCount.val.toNat numThreads loaded)
    (final : Final loaded) (reached : PhaseReachable wl ranks false totalOps numThreads c)
    (few : c.shared.insertNumbers.length ≤ inserts) : InsertsFresh wl ranks loaded c := by
  intro number member
  obtain ⟨j, below, counted⟩ := ((insert_logged reached).mem number).mp member
  have distinct (keyNum : Nat) (key : KeyNumber p wl ranks numThreads keyNum) :
      user ++ stdToString number ≠ wl.buildKeyName keyNum := by
    intro same
    have printed := (append_stdToString_inj user _ _).mp same
    exact apart j (by omega) keyNum key (printed.symm.trans counted.symm)
  have unreturned : ¬ wl.nextTransactionKeyReturns ranks wl.insertKeySequence
      (user ++ stdToString number) := by
    intro returned
    obtain ⟨keyNum, drawn, eligible, named⟩ := (returns_iff p ranks made records _).mp returned
    exact distinct keyNum (.inl ⟨drawn, eligible⟩) named
  have origin : wl.keyGenerator.counter = toU64 p.insertStart.val := by rw [made.keyGenerator]
  refine ⟨?_, ?_, ?_⟩
  · intro inserted
    obtain ⟨j, before, named⟩ :=
      (loaded_keys (by rw [origin]; exact toU64_lt _) loading final _).mp inserted
    rw [origin] at named
    exact distinct _ (.inr ⟨j, before, rfl⟩) named
  · intro requested
    exact unreturned (requested_returned reached _ requested)
  · rw [insertKeySequence_constant reached]
    exact unreturned

/-- Where the numbers of the inserts are fresh, no insert overwrites a loaded record. -/
theorem InsertsFresh.overwrites_none {loaded : System (Fin numThreads) Shared Thread}
    (fresh : InsertsFresh wl ranks loaded c)
    (reached : PhaseReachable wl ranks false totalOps numThreads c) :
    ∀ key ∈ insertedKeys c.shared.calls, key ∉ insertedKeys loaded.shared.calls := by
  intro key inserted
  obtain ⟨number, member, rfl⟩ := inserted_numbered reached key inserted
  exact (fresh number member).1

/-- With ordered names and uniform requests the ranges can be compared directly. -/
theorem counterApart_ordered_iff (p : Config) (wl : CoreWorkload) (made : Initialized p wl)
    (records : 1 ≤ p.recordCount.val) (start : 0 ≤ p.insertStart.val)
    (ordered : p.insertOrder = .ordered) (uniform : p.requestDistribution = .uniform)
    (inserts : Nat) (some_ : 1 ≤ inserts)
    (unwrapped : kUniformInsertStart + inserts ≤ 2 ^ 64) :
    CounterApart p wl ranks numThreads inserts ↔
      p.recordCount.val.toNat ≤ kUniformInsertStart ∧
      (numThreads * (p.recordCount.val.toNat / numThreads) = 0 ∨
        p.insertStart.val.toNat + numThreads * (p.recordCount.val.toNat / numThreads) ≤
          kUniformInsertStart ∨
        kUniformInsertStart + inserts ≤ p.insertStart.val.toNat) := by
  have plain (keyNum : Nat) : wl.keyNameNumber keyNum = keyNum := by
    simp [keyNameNumber, made.orderedInserts, ordered]
  have value (j : Nat) (below : j < inserts) :
      (kUniformInsertStart + j) % 2 ^ 64 = kUniformInsertStart + j :=
    Nat.mod_eq_of_lt (by omega)
  have lower := p.insertStart.property.2
  have upper := p.recordCount.property.2
  have share := Nat.mul_div_le p.recordCount.val.toNat numThreads
  have loaded (j : Nat) (below : j < numThreads * (p.recordCount.val.toNat / numThreads)) :
      (toU64 p.insertStart.val + j) % 2 ^ 64 = p.insertStart.val.toNat + j := by
    rw [toU64_of_nonneg _ start (by omega)]
    exact Nat.mod_eq_of_lt (by omega)
  have requested (keyNum : Nat) : wl.keyChooser.canDraw ranks wl.insertKeySequence keyNum ↔
      keyNum < p.recordCount.val.toNat := by
    rw [made.uniform_keyChooser uniform records, KeyChooser.canDraw_uniform,
      UniformGenerator.canDraw]
    dsimp only
    omega
  constructor
  · intro apart
    constructor
    · by_contra above
      have first := apart 0 some_ kUniformInsertStart
        (.inl ⟨(requested _).mpr (by omega), by omega⟩)
      rw [plain, value 0 some_] at first
      exact first rfl
    · by_contra overlapping
      -- The first value of the counter inside the loaded range, or the range's start.
      have meets := apart (p.insertStart.val.toNat - kUniformInsertStart) (by omega)
        (max p.insertStart.val.toNat kUniformInsertStart)
        (.inr ⟨kUniformInsertStart - p.insertStart.val.toNat, by omega,
          by rw [loaded _ (by omega)]; omega⟩)
      rw [plain, value _ (by omega)] at meets
      omega
  · intro disjoint j few keyNum key
    obtain ⟨below, separate⟩ := disjoint
    rw [plain, value j few]
    rcases key with ⟨_, low⟩ | ⟨k, before, rfl⟩
    · omega
    · rw [loaded k before]
      omega

/-- Inserts stay clear of the loaded and the requested keys, and overwrite no
loaded record, in every run whose inserts are few enough for the counter to meet
none of their numbers. With ordered names and uniform requests, from a start that
is not negative, that is a comparison of three intervals. -/
theorem inserts_fresh_when_apart (p : Config) (wl : CoreWorkload) (accepted : init p = .ok wl)
    (records : 1 ≤ p.recordCount.val) (ranks : Ranks) (numThreads inserts : Nat) :
    (CounterApart p wl ranks numThreads inserts →
      ∀ loaded : System (Fin numThreads) Shared Thread,
        PhaseReachable wl ranks true p.recordCount.val.toNat numThreads loaded → Final loaded →
        ∀ (operationCount : Nat) (c : System (Fin numThreads) Shared Thread),
          PhaseReachable wl ranks false operationCount numThreads c →
          c.shared.insertNumbers.length ≤ inserts → InsertsFresh wl ranks loaded c ∧
            ∀ key ∈ insertedKeys c.shared.calls, key ∉ insertedKeys loaded.shared.calls) ∧
    (0 ≤ p.insertStart.val → p.insertOrder = .ordered → p.requestDistribution = .uniform →
      1 ≤ inserts → kUniformInsertStart + inserts ≤ 2 ^ 64 →
      (CounterApart p wl ranks numThreads inserts ↔
        p.recordCount.val.toNat ≤ kUniformInsertStart ∧
        (numThreads * (p.recordCount.val.toNat / numThreads) = 0 ∨
          p.insertStart.val.toNat + numThreads * (p.recordCount.val.toNat / numThreads) ≤
            kUniformInsertStart ∨
          kUniformInsertStart + inserts ≤ p.insertStart.val.toNat))) := by
  have made := init_initialized p wl accepted
  constructor
  · intro apart loaded loading final operationCount c reached few
    have fresh := insertsFresh_of_apart p wl made records inserts apart loaded loading final
      reached few
    exact ⟨fresh, fresh.overwrites_none reached⟩
  · intro start ordered uniform some_ unwrapped
    exact counterApart_ordered_iff p wl made records start ordered uniform inserts some_ unwrapped

/-- A thousand records in order from zero: the first insert is fresh. -/
theorem inserts_fresh_when_apart_thousand : ∃ wl,
    init (mixedConfig 1000 0 .ordered) = .ok wl ∧
      ∃ loaded c : System (Fin 1) Shared Thread,
        c.shared.insertNumbers = [kUniformInsertStart] ∧
          InsertsFresh wl (fun _ _ => true) loaded c := by
  obtain ⟨wl, accepted, c, reached, inserted, _⟩ :=
    mixedConfig_first_insert 1000 0 .ordered
  obtain ⟨loaded, loading, final⟩ := load_completes wl (fun _ _ => true) 1000 1
  obtain ⟨fresh, intervals⟩ := inserts_fresh_when_apart _ wl accepted (by decide)
    (fun _ _ => true) 1 1
  have apart := (intervals (by decide) rfl rfl (by decide) (by decide)).mpr (by decide)
  exact ⟨wl, accepted, loaded, c, inserted,
    (fresh apart loaded loading final 2 c reached (by rw [inserted]; decide)).1⟩

/-- With one record more than the counter's start, the first insert overwrites
the last record. -/
theorem inserts_meet_loaded :
    ¬ ∀ (p : Config) (wl : CoreWorkload), init p = .ok wl → 1 ≤ p.recordCount.val →
      ∀ (ranks : Ranks) (numThreads : Nat), 1 ≤ numThreads →
        ∀ loaded : System (Fin numThreads) Shared Thread,
          PhaseReachable wl ranks true p.recordCount.val.toNat numThreads loaded → Final loaded →
          ∀ (operationCount : Nat) (c : System (Fin numThreads) Shared Thread),
            PhaseReachable wl ranks false operationCount numThreads c →
            InsertsFresh wl ranks loaded c := by
  intro claimed
  obtain ⟨wl, accepted, c, reached, inserted, _⟩ :=
    mixedConfig_first_insert 1000001 0 .ordered
  have made := init_initialized _ wl accepted
  obtain ⟨loaded, loading, final⟩ := load_completes wl (fun _ _ => true) 1000001 1
  have fresh := claimed _ wl accepted (by decide) _ 1 (by decide) loaded loading final 2
    c reached kUniformInsertStart (by rw [inserted]; exact List.mem_singleton.mpr rfl)
  have origin := made.keyGenerator_start (by decide)
  have named : user ++ stdToString kUniformInsertStart = wl.buildKeyName kUniformInsertStart := by
    simp [buildKeyName, keyNameNumber, made.orderedInserts, mixedConfig]
  apply fresh.1
  rw [loaded_keys_interval (by rw [origin]; decide) loading final, origin]
  exact ⟨kUniformInsertStart, by decide, by decide, named⟩

end YcsbCloud.Guarantees.KeyRanges
