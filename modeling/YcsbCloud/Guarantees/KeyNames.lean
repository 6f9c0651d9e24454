import YcsbCloud.Guarantees.LoadPhase
import YcsbCloud.Guarantees.RunPhase

/-!
# Key names

Distinct key numbers that the properties admit have distinct names, in order or
hashed. A key is inserted once for each number drawn that names it, so loading
writes every record under a key of its own.
-/
namespace YcsbCloud.Guarantees.KeyNames
open Library Library.Interleaving Source Source.CoreWorkload Source.Client Source.DelegateClient
open LoadPhase

variable {wl : CoreWorkload} {ranks : Ranks} {totalOps numThreads : Nat}
  {c : System (Fin numThreads) Shared Thread}

/-- The keys that the numbers drawn so far stand for, from either counter. -/
def drawnKeys (wl : CoreWorkload) (s : Shared) : List Bytes :=
  s.sequenceNumbers.map wl.buildKeyName ++ s.insertNumbers.map fun number =>
    user ++ stdToString number

/-- A number drawn becomes one pending insert, and a pending insert is made once. -/
theorem inserts_balanced {isLoading : Bool} {numOps : Nat} {s s' : Shared} {l l' : Thread}
    (moved : Moves wl ranks isLoading numOps s l s' l') (key : Bytes) :
    (insertedKeys s'.calls).count key + (insertedKeys (pendingCalls l')).count key +
        (drawnKeys wl s).count key =
      (insertedKeys s.calls).count key + (insertedKeys (pendingCalls l)).count key +
        (drawnKeys wl s').count key := by
  cases moved with
  | enter nextReport here more =>
    cases isLoading <;> simp [pendingCalls, here]
  | chooseOperation op here =>
    by_cases inserting : op = .INSERT <;> simp [pendingCalls, here, inserting]
  | leave here | drawKey _ _ here | rejectKey _ _ here | finish _ here =>
    simp [pendingCalls, here]
  | drawSequence values here =>
    simp only [pendingCalls, here, doInsert, drawnKeys, insertedKeys, List.map_append,
      List.count_append, List.filterMap_cons, List.filterMap_nil, Call.insertedKey, List.map_cons,
      List.map_nil, List.count_nil]
    omega
  | drawInsert draws here =>
    simp only [pendingCalls, here, transactionInsert, drawnKeys, insertedKeys, List.map_append,
      List.count_append, List.filterMap_cons, List.filterMap_nil, Call.insertedKey, List.map_cons,
      List.map_nil, List.count_nil]
    omega
  | acceptKey op keyNum draws here eligible =>
    have silent : (keyedTransaction wl op (wl.buildKeyName keyNum) draws).filterMap
        Call.insertedKey = [] :=
      List.filterMap_eq_nil_iff.mpr fun call member =>
        (RunPhase.keyedTransaction_calls op _ draws call member).2
    simp [pendingCalls, here, silent, insertedKeys]
  | call status call pending here =>
    simp only [pendingCalls, here, insertedKeys, drawnKeys, List.filterMap_append,
      List.count_append]
    rw [show call :: pending = [call] ++ pending by rfl, List.filterMap_append, List.count_append]
    omega

/-- No key has been inserted more often than numbers naming it were drawn. -/
theorem inserted_count_le {isLoading : Bool}
    (reached : PhaseReachable wl ranks isLoading totalOps numThreads c) (key : Bytes) :
    (insertedKeys c.shared.calls).count key ≤ (drawnKeys wl c.shared).count key := by
  have balance := reached.balanced (fun s => (insertedKeys s.calls).count key)
    (fun s => (drawnKeys wl s).count key) (fun l => (insertedKeys (pendingCalls l)).count key)
    fun a s l s' l' moved => inserts_balanced (delegateClient_moves moved) key
  have initial : ∑ i, (insertedKeys (pendingCalls ((launch wl numThreads).threads i))).count key =
      0 := by simp [launch, start, pendingCalls, insertedKeys]
  rw [initial] at balance
  simp only [launch, insertedKeys, drawnKeys, List.filterMap_nil, List.map_nil, List.append_nil,
    List.count_nil] at balance ⊢
  omega

/-- Loading threads do not use the insert counter of the run phase. -/
theorem loading_insertNumbers (reached : PhaseReachable wl ranks true totalOps numThreads c) :
    c.shared.insertNumbers = [] := by
  refine (reached.each_thread (fun s => s.insertNumbers = [])
    (fun _ l => Share (totalOps / numThreads) l) rfl (fun _ => ⟨rfl, Nat.zero_le _⟩) ?_ ?_).1
  · intro a s l s' l' unused share moved
    have move := delegateClient_moves moved
    refine ⟨?_, share_step share move⟩
    cases move with
    | drawInsert draws here => simp only [Share, here] at share
    | _ => exact unused
  · intro a s l s' l' other _ share moved
    exact share

/-- While the numbers drawn stay below `2 ^ 32`, no key is inserted twice. -/
theorem inserted_nodup (fits : wl.keyGenerator.counter + totalOps ≤ 2 ^ 32)
    (reached : PhaseReachable wl ranks true totalOps numThreads c) :
    (insertedKeys c.shared.calls).Nodup := by
  have length := drawn_length_le reached
  have share := Nat.mul_div_le totalOps numThreads
  have small : ∀ number ∈ c.shared.sequenceNumbers, number < 2 ^ 32 := by
    intro number drawn
    have range := (mem_drawn (by omega) reached number).mp drawn
    omega
  have numbers : c.shared.sequenceNumbers.Nodup := by
    rw [drawn_consecutive (by omega) reached]
    exact List.Nodup.map (fun a b same => Nat.add_left_cancel same) List.nodup_range
  have names : (c.shared.sequenceNumbers.map wl.buildKeyName).Nodup :=
    numbers.map_on fun a ha b hb same => wl.buildKeyName_injOn a b (small a ha) (small b hb) same
  rw [List.nodup_iff_count_le_one] at names ⊢
  intro key
  have few := inserted_count_le reached key
  simp only [drawnKeys, loading_insertNumbers reached, List.map_nil, List.append_nil] at few
  exact few.trans (names key)

/-- Names of distinct key numbers differ, hashed or not; the hash is injective on
the numbers that `int` properties admit; and under every schedule the keys
inserted by loading are pairwise distinct. -/
theorem key_names_distinct (wl : CoreWorkload) :
    (∀ a b, a < 2 ^ 32 → b < 2 ^ 32 → a ≠ b → wl.buildKeyName a ≠ wl.buildKeyName b) ∧
    (∀ a b, a < 2 ^ 32 → b < 2 ^ 32 → a ≠ b → Utils.fnvHash64 a ≠ Utils.fnvHash64 b) ∧
    (∀ p, init p = .ok wl → 0 ≤ p.insertStart.val → ∀ (ranks : Ranks) (numThreads : Nat)
      (c : System (Fin numThreads) Shared Thread),
      PhaseReachable wl ranks true p.recordCount.val.toNat numThreads c →
        (insertedKeys c.shared.calls).Nodup) := by
  refine ⟨?_, ?_, ?_⟩
  · intro a b ha hb distinct same
    exact distinct (wl.buildKeyName_injOn a b ha hb same)
  · intro a b ha hb distinct same
    exact distinct (Utils.fnvHash64_injOn a b ha hb same)
  · intro p accepted start ranks numThreads c reached
    have origin := (init_initialized p wl accepted).keyGenerator_start start
    have lower := p.insertStart.property.2
    have upper := p.recordCount.property.2
    exact inserted_nodup (by omega) reached

/-- Hashed names over three records: the first and the last number admitted, and a
load phase that has ended. -/
theorem key_names_distinct_hashed : ∃ wl, init (RunPhase.mixedConfig 3 0 .hashed) = .ok wl ∧
    wl.buildKeyName 0 ≠ wl.buildKeyName (2 ^ 32 - 1) ∧
    Utils.fnvHash64 0 ≠ Utils.fnvHash64 (2 ^ 32 - 1) ∧
    ∃ c : System (Fin 2) Shared Thread, Final c ∧ (insertedKeys c.shared.calls).Nodup := by
  obtain ⟨wl, accepted⟩ := RunPhase.mixedConfig_accepted 3 0 .hashed
  obtain ⟨names, hashes, loads⟩ := key_names_distinct wl
  obtain ⟨c, reached, final⟩ := load_completes wl (fun _ _ => true) 3 2
  refine ⟨wl, accepted, ?_, ?_, c, final, ?_⟩
  · exact names 0 (2 ^ 32 - 1) (by decide) (by decide) (by decide)
  · exact hashes 0 (2 ^ 32 - 1) (by decide) (by decide) (by decide)
  · exact loads _ accepted (by decide) _ 2 c reached

end YcsbCloud.Guarantees.KeyNames
