import Mathlib.Combinatorics.Pigeonhole
import Mathlib.Order.Interval.Finset.Nat
import YcsbCloud.Guarantees.RunPhase

/-!
# The rejection loop of `NextTransactionKey` under the zipfian distribution

The chooser ranges over the records and the inserts expected, and the loop throws
away the numbers that are not records yet. Which numbers the chooser can produce
is a matter of the hash: a keyspace has a smallest one, and with no more records
than that the loop throws away every draw. Keyspaces up to 256 are decided one by
one. A larger one has a record among its numbers if at most thirteen inserts are
expected: of the hashes of `scattered` no three agree modulo so large a number.
-/
namespace YcsbCloud.Guarantees.KeyRejection
open Library Library.Interleaving Source Source.CoreWorkload Source.Client Source.DelegateClient
open RunPhase

variable {p : Config} {wl : CoreWorkload} {ranks : Ranks}

/-- The smallest number that the scrambled chooser over so many keys produces. -/
def leastResidue (keyspace : Nat) : Nat :=
  (List.range keyspace).foldr
    (fun rank least => min (Utils.fnvHash64 rank % keyspace) least) keyspace

theorem foldr_min_lt_iff (f : Nat → Nat) (start bound : Nat) (ranks : List Nat) :
    ranks.foldr (fun rank least => min (f rank) least) start < bound ↔
      start < bound ∨ ∃ rank ∈ ranks, f rank < bound := by
  induction ranks with
  | nil => simp
  | cons rank rest ih =>
    rw [List.foldr_cons, min_lt_iff, ih, List.exists_mem_cons_iff]
    exact or_left_comm

theorem leastResidue_lt_iff (keyspace bound : Nat) (within : bound ≤ keyspace) :
    leastResidue keyspace < bound ↔
      ∃ rank < keyspace, Utils.fnvHash64 rank % keyspace < bound := by
  rw [leastResidue, foldr_min_lt_iff, or_iff_right (Nat.not_lt_of_le within)]
  simp only [List.mem_range]

/-- A keyspace of records only has a record among its numbers. -/
theorem leastResidue_lt (keyspace : Nat) (positive : 1 ≤ keyspace) :
    leastResidue keyspace < keyspace := by
  rw [leastResidue_lt_iff keyspace keyspace (le_refl _)]
  exact ⟨0, positive, Nat.mod_lt _ positive⟩

/-- The keyspaces up to 256 whose smallest number is not 0, with that number. -/
def leftOut : List (Nat × Nat) :=
  [(7, 1), (21, 1), (23, 5), (29, 1), (31, 1), (35, 1), (36, 1), (43, 2), (46, 20), (47, 2),
    (48, 7), (50, 1), (52, 1), (53, 1), (57, 6), (59, 2), (60, 2), (63, 1), (70, 1), (73, 2),
    (79, 3), (86, 1), (91, 1), (92, 2), (94, 1), (96, 7), (97, 2), (101, 1), (102, 2), (103, 2),
    (106, 1), (109, 5), (110, 2), (111, 1), (113, 2), (114, 2), (115, 2), (117, 2), (126, 2),
    (127, 2), (129, 1), (139, 2), (140, 3), (143, 2), (146, 2), (154, 2), (155, 1), (162, 2),
    (163, 1), (172, 1), (173, 4), (176, 1), (177, 1), (180, 2), (185, 1), (191, 5), (198, 2),
    (203, 1), (206, 2), (208, 3), (217, 3), (218, 5), (219, 2), (220, 1), (222, 1), (225, 2),
    (226, 2), (227, 2), (234, 2), (235, 1), (244, 2), (248, 2), (255, 1)]

theorem leastResidue_small :
    ∀ keyspace < 257, 1 ≤ keyspace → leastResidue keyspace = (leftOut.lookup keyspace).getD 0 := by
  decide +kernel

theorem leftOut_bounded : ∀ entry ∈ leftOut, entry.1 ≤ 256 ∧ entry.2 < entry.1 := by decide

theorem leftOut_nodup : (leftOut.map Prod.fst).Nodup := by decide

/-- So many records and inserts expected are not a listed keyspace with all its
records below the smallest number. -/
def Eligible (records added : Nat) : Prop :=
  ∀ entry ∈ leftOut, entry.1 = records + added → entry.2 < records

theorem leftOut_lookup_lt_iff (records added : Nat) (positive : 1 ≤ records) :
    (leftOut.lookup (records + added)).getD 0 < records ↔ Eligible records added := by
  have listed := leftOut_nodup
  unfold Eligible
  generalize leftOut = entries at listed
  induction entries with
  | nil => simpa using Nat.lt_of_succ_le positive
  | cons entry rest ih =>
    obtain ⟨keyspace, least⟩ := entry
    rw [List.map_cons, List.nodup_cons] at listed
    rw [List.forall_mem_cons]
    by_cases here : records + added = keyspace
    · have alone : ∀ entry ∈ rest, entry.1 = records + added → entry.2 < records :=
        fun entry member same =>
          absurd (List.mem_map.mpr ⟨entry, member, same.trans here⟩) listed.1
      rw [here, List.lookup_cons_self, Option.getD_some]
      exact ⟨fun below => ⟨fun _ => below, by rwa [← here]⟩, fun both => both.1 rfl⟩
    · simp only [List.lookup_cons, beq_false_of_ne here, ih listed.2]
      exact ⟨fun others => ⟨fun same => absurd same.symm here, others⟩, And.right⟩

/-- Ranks no three of whose hashes are far apart by multiples of one large number. -/
def scattered : List Nat :=
  [6, 10, 19, 37, 38, 57, 61, 71, 100, 103, 108, 115, 132, 148, 168, 184, 190, 200, 202, 205, 213,
    222, 223, 241, 247, 248, 249]

/-- How far the hash of one rank is above that of another. -/
def hashDistance (rank other : Nat) : Int := Utils.fnvHash64 rank - Utils.fnvHash64 other

theorem scattered_gcd : ∀ a ∈ scattered, ∀ b ∈ scattered, ∀ c ∈ scattered,
    a ≠ b → a ≠ c → b ≠ c → 0 < Int.gcd (hashDistance b a) (hashDistance c a) ∧
      Int.gcd (hashDistance b a) (hashDistance c a) ≤ 256 := by
  decide +kernel

/-- Three ranks of the list with one residue leave no room for a large keyspace. -/
theorem scattered_apart {keyspace : Nat} (large : 256 < keyspace) {a b c : Nat}
    (ha : a ∈ scattered) (hb : b ∈ scattered) (hc : c ∈ scattered) (ab : a ≠ b) (ac : a ≠ c)
    (bc : b ≠ c) (sameB : Utils.fnvHash64 a ≡ Utils.fnvHash64 b [MOD keyspace])
    (sameC : Utils.fnvHash64 a ≡ Utils.fnvHash64 c [MOD keyspace]) : False := by
  obtain ⟨positive, bounded⟩ := scattered_gcd a ha b hb c hc ab ac bc
  have divides : keyspace ∣ Int.gcd (hashDistance b a) (hashDistance c a) :=
    Int.natCast_dvd_natCast.mp
      (Int.dvd_coe_gcd (Nat.modEq_iff_dvd.mp sameB) (Nat.modEq_iff_dvd.mp sameC))
  have fits := Nat.le_of_dvd positive divides
  omega

/-- Twenty-seven ranks into thirteen residues: three of them would share one. -/
theorem hashed_below {records added : Nat} (large : 256 < records + added) (few : added ≤ 13) :
    ∃ rank < records + added, Utils.fnvHash64 rank % (records + added) < records := by
  by_contra unreached
  push Not at unreached
  have inside : ∀ rank ∈ scattered.toFinset,
      Utils.fnvHash64 rank % (records + added) ∈ Finset.Ico records (records + added) := by
    intro rank member
    have low : ∀ rank ∈ scattered, rank < 256 := by decide
    have small := low rank (List.mem_toFinset.mp member)
    rw [Finset.mem_Ico]
    exact ⟨unreached rank (by omega), Nat.mod_lt _ (by omega)⟩
  have crowded : (Finset.Ico records (records + added)).card * 2 < scattered.toFinset.card := by
    rw [Nat.card_Ico, show scattered.toFinset.card = 27 by decide]
    omega
  obtain ⟨residue, _, shared⟩ :=
    Finset.exists_lt_card_fiber_of_mul_lt_card_of_maps_to inside crowded
  obtain ⟨a, ha, b, hb, c, hc, ab, ac, bc⟩ := Finset.two_lt_card.mp shared
  simp only [Finset.mem_filter, List.mem_toFinset] at ha hb hc
  exact scattered_apart large ha.1 hb.1 hc.1 ab ac bc (ha.2.trans hb.2.symm) (ha.2.trans hc.2.symm)

/-- Where few inserts are expected or the keyspace is small, the list decides. -/
theorem leastResidue_lt_records_iff {records added : Nat} (positive : 1 ≤ records)
    (decided : added ≤ 13 ∨ records + added ≤ 256) :
    leastResidue (records + added) < records ↔ Eligible records added := by
  by_cases small : records + added ≤ 256
  · rw [leastResidue_small _ (by omega) (by omega), leftOut_lookup_lt_iff _ _ positive]
  · have few : added ≤ 13 := by omega
    rw [leastResidue_lt_iff _ _ (by omega)]
    refine iff_of_true (hashed_below (by omega) few) ?_
    intro entry member same
    have bounded := leftOut_bounded entry member
    omega

/-- Larger keyspaces can leave more out: with 743 inserts expected, two hundred
records are all below the smallest number. -/
example : leastResidue (200 + 743) = 204 := by decide +kernel

/-- With every rank of its keyspace at hand, the chooser produces the residues of
their hashes. -/
theorem zipfian_canDraw_iff (items : Nat) (small : items < 2 ^ 64) (basis : CounterGenerator)
    (all : ∀ items rank, ranks items rank = true ↔ rank < items) (keyNum : Nat) :
    (KeyChooser.scrambledZipfian ⟨0, items, ⟨items, 0⟩⟩).canDraw ranks basis keyNum ↔
      ∃ rank < items, Utils.fnvHash64 rank % items = keyNum := by
  have scrambled (rank : Nat) (below : rank < items) :
      ScrambledZipfianGenerator.scramble ⟨0, items, ⟨items, 0⟩⟩ rank =
        Utils.fnvHash64 rank % items := by
    have residue : Utils.fnvHash64 rank % items < items := Nat.mod_lt _ (by omega)
    simp only [ScrambledZipfianGenerator.scramble, addU64, Nat.zero_add]
    exact Nat.mod_eq_of_lt (by omega)
  simp only [KeyChooser.canDraw, KeyChooser.next, Option.ite_none_right_eq_some, all,
    Option.some.injEq]
  refine exists_congr fun rank => and_congr_right fun below => ?_
  rw [scrambled rank below]

/-- In every state of every run phase the chooser can produce a number that the
test of the loop lets through. -/
def LoopCanExit (wl : CoreWorkload) (ranks : Ranks) : Prop :=
  ∀ (numThreads totalOps : Nat) (c : System (Fin numThreads) Shared Thread),
    PhaseReachable wl ranks false totalOps numThreads c →
      ∃ keyNum, wl.keyChooser.canDraw ranks c.shared.insertKeySequence keyNum ∧
        keyNum ≤ c.shared.insertKeySequence.last

/-- Nothing moves the bound or the chooser, so one state decides for all. -/
theorem loopCanExit_iff :
    LoopCanExit wl ranks ↔ ∃ keyNum, wl.keyChooser.canDraw ranks wl.insertKeySequence keyNum ∧
      keyNum ≤ wl.insertKeySequence.last := by
  constructor
  · intro exits
    exact exits 0 0 (launch wl 0) ⟨[], [], rfl⟩
  · intro exits numThreads totalOps c reached
    rw [insertKeySequence_constant reached]
    exact exits

/-- The draw that lets a client in the loop pass the test. -/
theorem LoopCanExit.passes (exits : LoopCanExit wl ranks) {numThreads totalOps : Nat}
    {c : System (Fin numThreads) Shared Thread}
    (reached : PhaseReachable wl ranks false totalOps numThreads c) {i : Fin numThreads}
    {op : Operation} (here : (c.threads i).position = .keyDraw op) :
    ∃ input l keyNum, delegateClient wl ranks false (totalOps / numThreads) input c.shared
        (c.threads i) = some (c.shared, l) ∧
      l.position = .keyTest op keyNum ∧ keyNum ≤ c.shared.insertKeySequence.last := by
  obtain ⟨keyNum, drawn, eligible⟩ := exits numThreads totalOps c reached
  obtain ⟨draw, produced⟩ := drawn
  refine ⟨{ anyInput with keyDraw := draw },
    { c.threads i with position := .keyTest op keyNum }, keyNum, ?_, rfl, eligible⟩
  simp only [delegateClient, here, produced]

/-- Where the loop cannot exit, no run ever gets a key from it. -/
theorem requested_nothing (stuck : ¬ LoopCanExit wl ranks) {numThreads totalOps : Nat}
    {c : System (Fin numThreads) Shared Thread}
    (reached : PhaseReachable wl ranks false totalOps numThreads c) :
    requestedKeys c.shared.calls = [] := by
  rw [List.eq_nil_iff_forall_not_mem]
  intro key requested
  obtain ⟨keyNum, drawn, eligible, _⟩ := requested_returned reached key requested
  exact stuck (loopCanExit_iff.mpr ⟨keyNum, drawn, eligible⟩)

/-- With at most thirteen inserts expected, or a keyspace of at most 256, the loop
can exit in every state of every run unless the keyspace is a listed one with its
records all below the smallest number. Where the loop can exit, a client in it has
a draw that takes it past the test; where it cannot, no run queries or updates
anything. With no inserts expected it can always exit. -/
theorem rejection_loop_exits_iff (p : Config) (wl : CoreWorkload) (accepted : init p = .ok wl)
    (zipfian : p.requestDistribution = .zipfian) (records : 1 ≤ p.recordCount.val) (added : Int)
    (converted : newKeys p.operationCount.val p.insertProportion = .ok added) (growing : 0 ≤ added)
    (ranks : Ranks) (all : ∀ items rank, ranks items rank = true ↔ rank < items) :
    (added ≤ 13 ∨ p.recordCount.val + added ≤ 256 →
      (LoopCanExit wl ranks ↔ Eligible p.recordCount.val.toNat added.toNat)) ∧
    (LoopCanExit wl ranks → ∀ (numThreads totalOps : Nat)
      (c : System (Fin numThreads) Shared Thread),
      PhaseReachable wl ranks false totalOps numThreads c →
        ∀ i op, (c.threads i).position = .keyDraw op → ∃ input l keyNum,
          delegateClient wl ranks false (totalOps / numThreads) input c.shared (c.threads i) =
            some (c.shared, l) ∧
          l.position = .keyTest op keyNum ∧ keyNum ≤ c.shared.insertKeySequence.last) ∧
    (¬ LoopCanExit wl ranks → ∀ (numThreads totalOps : Nat)
      (c : System (Fin numThreads) Shared Thread),
      PhaseReachable wl ranks false totalOps numThreads c → requestedKeys c.shared.calls = []) ∧
    (added = 0 → LoopCanExit wl ranks) := by
  have made := init_initialized p wl accepted
  have upper := p.recordCount.property.2
  have limit := (newKeysWith_range converted).2
  obtain ⟨chooser, _⟩ :=
    (keyChooserOf_zipfian_iff zipfian (by omega) added converted growing _ _).mp made.keyChooser
  have exits : LoopCanExit wl ranks ↔
      leastResidue (p.recordCount.val.toNat + added.toNat) < p.recordCount.val.toNat := by
    rw [loopCanExit_iff, leastResidue_lt_iff _ _ (by omega), chooser,
      made.insertKeySequence_last records]
    simp only [zipfian_canDraw_iff _ (by omega : p.recordCount.val.toNat + added.toNat < 2 ^ 64) _
      all]
    constructor
    · intro drawn
      obtain ⟨keyNum, ⟨rank, below, same⟩, eligible⟩ := drawn
      exact ⟨rank, below, by omega⟩
    · intro hashed
      obtain ⟨rank, below, eligible⟩ := hashed
      exact ⟨_, ⟨rank, below, rfl⟩, by omega⟩
  refine ⟨?_, ?_, ?_, ?_⟩
  · intro decided
    rw [exits]
    exact leastResidue_lt_records_iff (by omega) (by omega)
  · intro can numThreads totalOps c reached i op here
    exact can.passes reached here
  · intro stuck numThreads totalOps c reached
    exact requested_nothing stuck reached
  · intro noInserts
    rw [exits, noInserts]
    exact leastResidue_lt _ (by omega)

/-- As many reads as inserts, so that as many inserts are expected as there are
operations. -/
def insertingConfig (recordCount operationCount : CInt) : Config :=
  { recordCount, operationCount
    readProportion := 1 / 2
    updateProportion := 0
    insertProportion := 1 / 2
    requestDistribution := .zipfian }

/-- Half of so few operations, and its double, are doubles. -/
theorem insertingConfig_newKeys (recordCount operationCount : CInt)
    (operations : 0 ≤ operationCount.val) :
    newKeys (insertingConfig recordCount operationCount).operationCount.val
      (insertingConfig recordCount operationCount).insertProportion = .ok operationCount.val := by
  have upper := operationCount.property.2
  have small : |operationCount.val| < 2 ^ 53 := by rw [abs_of_nonneg operations]; omega
  dsimp only [insertingConfig]
  have half : Binary64.round (operationCount.val * (1 / 2)) = operationCount.val * (1 / 2) := by
    rw [mul_one_div]
    exact Binary64.round_eq (Binary64.representable_half small)
  have whole : Binary64.round (operationCount.val * (1 / 2) * 2) = operationCount.val := by
    rw [mul_assoc, one_div_mul_cancel two_ne_zero, mul_one]
    exact Binary64.round_eq (Binary64.representable_intCast small)
  have limit : (operationCount.val : ℚ) < 2 ^ 31 := by exact_mod_cast upper
  refine (newKeysWith_ok_iff (doubled_nonneg operations (by norm_num)) _).mpr ?_
  rw [half, whole, Int.floor_intCast]
  exact ⟨rfl, limit⟩

theorem insertingConfig_accepted (recordCount operationCount : CInt)
    (records : 0 ≤ recordCount.val) (operations : 0 ≤ operationCount.val)
    (two : 2 ≤ recordCount.val.toNat + operationCount.val.toNat) :
    ∃ wl, init (insertingConfig recordCount operationCount) = .ok wl := by
  have chosen := (keyChooserOf_zipfian_iff (p := insertingConfig recordCount operationCount) rfl
    records _ (insertingConfig_newKeys recordCount operationCount operations) operations
    ⟨toU64 recordCount.val⟩ _).mpr ⟨rfl, two⟩
  exact (init_returns_iff _).mpr ⟨⟨_, rfl⟩, ⟨_, chosen⟩, ⟨_, rfl⟩⟩

/-- Two records and a keyspace of seven. -/
theorem rejection_loop_exits_iff_seven : ∃ wl, init (insertingConfig 2 5) = .ok wl ∧
    LoopCanExit wl fun items rank => rank < items := by
  obtain ⟨wl, accepted⟩ := insertingConfig_accepted 2 5 (by decide) (by decide) (by decide)
  have exits := (rejection_loop_exits_iff _ wl accepted rfl (by decide) _
    (insertingConfig_newKeys 2 5 (by decide)) (by decide) (fun items rank => rank < items)
    (by simp)).1
  exact ⟨wl, accepted, (exits (by decide)).mpr (by unfold Eligible; decide)⟩

/-- One record and the same keyspace: no rank of it hashes to a multiple of seven. -/
theorem record_never_drawn :
    ¬ ∀ (p : Config) (wl : CoreWorkload), init p = .ok wl → p.requestDistribution = .zipfian →
      1 ≤ p.recordCount.val → ∀ added, newKeys p.operationCount.val p.insertProportion = .ok added →
      0 ≤ added → ∃ rank < p.recordCount.val.toNat + added.toNat,
        Utils.fnvHash64 rank % (p.recordCount.val.toNat + added.toNat) ≤
          p.recordCount.val.toNat - 1 := by
  intro claimed
  obtain ⟨wl, accepted⟩ := insertingConfig_accepted 1 6 (by decide) (by decide) (by decide)
  have drawn := claimed _ wl accepted rfl (by decide) _
    (insertingConfig_newKeys 1 6 (by decide)) (by decide)
  exact absurd drawn (by decide)

end YcsbCloud.Guarantees.KeyRejection
