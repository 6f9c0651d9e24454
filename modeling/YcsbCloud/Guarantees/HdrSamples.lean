import YcsbCloud.Guarantees.HdrIntervalRecorder

/-!
# Every recording is in one sample

What a reader does keeps the places of the histograms, and with them the account of the calls:
a sample is returned when no writer is left in it, and has what its calls count.
-/
namespace YcsbCloud.Guarantees.HdrIntervalRecorder
open Library.LogLinear Library.OrderStatistics Library.Interleaving Source.HdrHistogram
  Source.HdrAtomic Source.HdrPhaser Source.HdrIntervalRecorder HdrBuckets HdrRecording
  HdrPercentiles HdrAtomic HdrPhaser Library.Places

variable {ι : Type*} [DecidableEq ι] [Fintype ι]

section Readers

variable {c : BucketConfig} {r : Recorder} {writers : ι → Option Writer} {readers : ι → Option Reader}

omit [Fintype ι] in
/-- A reader that keeps the mutex, or stays without. -/
theorem locking_update {holder : Option ι} (locking : ∀ i, Locking (readers i) ↔ holder = some i)
    {i : ι} {next : Option Reader} (same : Locking next ↔ Locking (readers i)) (j : ι) :
    Locking (Function.update readers i next j) ↔ holder = some j := by
  by_cases mine : j = i
  · subst mine
    rw [Function.update_self, same]
    exact locking j
  · rw [Function.update_of_ne mine]
    exact locking j

/-- What a move of a reader on the phaser has to keep. -/
theorem Inv.moved (inv : Inv c r writers readers) {i : ι} {now next : Option Reader}
    (here : readers i = now) {phaser : Phaser}
    (locked : ∃ holder : Option ι, phaser.readerMutex = holder.isSome ∧
      (∀ j, Locking (Function.update readers i next j) ↔ holder = some j) ∧
      Phased phaser (inside ∘ writers) (holder.bind (flipOf ∘ Function.update readers i next))
        r.entries)
    (unused : unusedBy next = unusedBy now) (retired : retiredBy next = retiredBy now)
    (stored : ∀ p oldActive, next = some (.storeActive p oldActive) → oldActive = r.active)
    (acting : ∀ k val p t flip, writers k = some (.update val p t) → now = some (.flip p flip) →
      Behind val flip → ∃ flip', next = some (.flip p flip') ∧ Behind val flip') :
    Inv c { r with phaser := phaser } writers (Function.update readers i next) := by
  subst here
  refine { inv with
    locked := locked
    placed := ?_
    stored := ?_
    acting := ?_
    fresh := ?_
    retired := ?_ }
  · have same : ownedBy ∘ Function.update readers i next = ownedBy ∘ readers :=
      funext (view_update ownedBy readers (by rw [ownedBy, unused, retired, ownedBy]))
    rw [same]
    exact inv.placed
  · intro j p oldActive at_j
    by_cases mine : j = i
    · subst mine
      rw [Function.update_self] at at_j
      exact stored p oldActive at_j
    · rw [Function.update_of_ne mine] at at_j
      exact inv.stored j p oldActive at_j
  · intro k val p t writes
    refine (inv.acting k val p t writes).imp_right ?_
    rintro ⟨j, flip, reads, behind⟩
    by_cases mine : j = i
    · subst mine
      obtain ⟨flip', goes_on, still⟩ := acting k val p t flip writes reads behind
      exact ⟨j, flip', by rwa [Function.update_self], still⟩
    · exact ⟨j, flip, by rwa [Function.update_of_ne mine], behind⟩
  · intro j p is_unused
    rw [view_update unusedBy readers unused] at is_unused
    exact inv.fresh j p is_unused
  · intro j p is_retired
    rw [view_update retiredBy readers retired] at is_retired
    exact inv.retired j p is_retired

omit [DecidableEq ι] in
/-- The reader with the mutex is the holder. -/
theorem Inv.holds (inv : Inv c r writers readers) {i : ι} (here : Locking (readers i)) :
    r.phaser.readerMutex = true ∧ (∀ j, Locking (readers j) ↔ some i = some j) ∧
      Phased r.phaser (inside ∘ writers) (flipOf (readers i)) r.entries := by
  obtain ⟨holder, is_locked, locking, phased⟩ := inv.locked
  obtain rfl := (locking i).mp here
  exact ⟨is_locked, locking, phased⟩

/-- A reader takes the mutex. -/
theorem Inv.lock (inv : Inv c r writers readers) {i : ι} {p : ℕ}
    (here : readers i = some (.lock p)) (free : r.phaser.readerMutex = false) :
    Inv c { r with phaser := { r.phaser with readerMutex := true } } writers
      (Function.update readers i (some (.loadActive p))) := by
  obtain ⟨holder, is_locked, locking, phased⟩ := inv.locked
  have nobody : holder = none := by
    cases holder with
    | none => rfl
    | some j =>
      rw [free] at is_locked
      cases is_locked
  subst nobody
  refine inv.moved here ⟨some i, rfl, ?_, ?_⟩ rfl rfl (fun _ _ => nofun)
    (fun _ _ _ _ _ _ => nofun)
  · intro j
    by_cases mine : j = i
    · subst mine
      rw [Function.update_self]
      exact ⟨fun _ => rfl, fun _ => trivial⟩
    · rw [Function.update_of_ne mine, locking j]
      exact ⟨nofun, fun same => absurd (Option.some.inj same).symm mine⟩
  · rw [Option.bind_some, Function.comp_apply, Function.update_self, flipOf]
    exact ⟨phased.started, phased.balance, phased.flipping⟩

/-- A reader loads the active histogram. -/
theorem Inv.loadActive (inv : Inv c r writers readers) {i : ι} {p : ℕ}
    (here : readers i = some (.loadActive p)) :
    Inv c r writers (Function.update readers i (some (.storeActive p r.active))) := by
  have locks : Locking (readers i) := by rw [here]; trivial
  obtain ⟨is_locked, locking, phased⟩ := inv.holds locks
  refine inv.moved here ⟨some i, is_locked, ?_, ?_⟩ rfl rfl ?_ (fun _ _ _ _ _ _ => nofun)
  · exact locking_update locking ⟨fun _ => locks, fun _ => trivial⟩
  · rw [Option.bind_some, Function.comp_apply, Function.update_self, flipOf]
    rw [here, flipOf] at phased
    exact phased
  · rintro q oldActive ⟨⟩
    rfl

/-- A reader makes an operation of its flip. -/
theorem Inv.flip (inv : Inv c r writers readers) {i : ι} {oldActive : ℕ} {flip : Flip}
    (here : readers i = some (.flip oldActive flip)) :
    Inv c { r with phaser := (flip.operate r.phaser).1 } writers (Function.update readers i
      (some (match (flip.operate r.phaser).2 with
        | some next => .flip oldActive next
        | none => .unlock oldActive))) := by
  have locks : Locking (readers i) := by rw [here]; trivial
  obtain ⟨is_locked, locking, phased⟩ := inv.holds locks
  rw [here, flipOf] at phased
  have operated := phased.operate
  have mutex := (readerMutex_operate r.phaser flip).trans is_locked
  refine inv.moved here ⟨some i, mutex, ?_, ?_⟩ ?_ ?_ ?_ ?_
  · refine locking_update locking ⟨fun _ => locks, fun _ => ?_⟩
    split <;> trivial
  · rw [Option.bind_some, Function.comp_apply, Function.update_self]
    cases next : (flip.operate r.phaser).2 with
    | none =>
      rw [next] at operated
      exact operated
    | some flip' =>
      rw [next] at operated
      exact operated
  · split <;> rfl
  · split <;> rfl
  · intro p old is_store
    split at is_store <;> cases is_store
  · intro k val p t flip' writes reads behind
    cases reads
    have within : (inside ∘ writers) k = some val := by rw [Function.comp_apply, writes, inside]
    obtain ⟨next, goes_on, still⟩ := phased.behind within behind
    exact ⟨next, by rw [goes_on], still⟩

omit [DecidableEq ι] in
/-- While no histogram is taken away, only the active one and the samples held have a log. -/
theorem Inv.live_logs (inv : Inv c r writers readers) (unretired : ∀ i, retiredBy (readers i) = none)
    {active : Recorded} (at_active : r.histograms[r.active]? = some active) (entry : Call × Bool) :
    (logs r.histograms).count entry =
      active.returned.count entry + (logs (r.held.map Prod.snd)).count entry := by
  obtain ⟨others, pointers, owned⟩ := inv.placed.perm
  have placed := pointers.map fun p => (r.histograms[p]?).getD active
  have all : (List.range r.histograms.length).map (fun p => (r.histograms[p]?).getD active) =
      r.histograms := by
    refine List.ext_getElem (by rw [List.length_map, List.length_range]) ?_
    intro p _ inside
    rw [List.getElem_map, List.getElem_range, List.getElem?_eq_getElem inside, Option.getD_some]
  have held : (r.held.map Prod.fst).map (fun p => (r.histograms[p]?).getD active) =
      r.held.map Prod.snd := by
    rw [List.map_map]
    apply List.map_congr_left
    intro e member
    rw [Function.comp_apply, inv.kept e member, Option.getD_some]
  have unused : logs (others.map fun p => (r.histograms[p]?).getD active) = [] := by
    rw [logs, List.flatMap_eq_nil_iff]
    intro s member
    obtain ⟨p, present, rfl⟩ := List.mem_map.mp member
    obtain ⟨i, owns⟩ := owned p present
    rw [Function.comp_apply, ownedBy, unretired i, Option.or_none] at owns
    obtain ⟨s, at_p, empty⟩ := inv.fresh i p owns
    rw [at_p, Option.getD_some, empty]
  rw [all, List.map_cons, List.map_append, at_active, Option.getD_some, held] at placed
  have counts := (placed.flatMap_right Recorded.returned).count_eq entry
  rw [List.flatMap_cons, List.flatMap_append, List.count_append, List.count_append] at counts
  dsimp only [logs] at unused ⊢
  rw [counts, unused, List.count_nil, Nat.add_zero]

/-- A reader stores the recycled histogram as the active one. -/
theorem Inv.storeActive (inv : Inv c r writers readers) {i : ι} {p oldActive : ℕ}
    (here : readers i = some (.storeActive p oldActive)) :
    Inv c { r with active := p, replaced := r.returned } writers
      (Function.update readers i (some (.flip oldActive .getStart))) := by
  have locks : Locking (readers i) := by rw [here]; trivial
  obtain ⟨is_locked, locking, phased⟩ := inv.holds locks
  obtain rfl := inv.stored i p oldActive here
  have alone {j : ι} (locks : Locking (readers j)) : j = i :=
    (Option.some.inj ((locking j).mp locks)).symm
  refine { inv with
    locked := ⟨some i, is_locked, locking_update locking ⟨fun _ => locks, fun _ => trivial⟩, ?_⟩
    placed := ?_
    stored := ?_
    acting := ?_
    fresh := ?_
    retired := ?_ }
  · rw [Option.bind_some, Function.comp_apply, Function.update_self, flipOf]
    rw [here, flipOf] at phased
    exact phased.begin
  · rw [Function.comp_update]
    exact inv.placed.swap (by rw [Function.comp_apply, here]; rfl)
  · intro j q old at_j
    by_cases mine : j = i
    · subst mine
      rw [Function.update_self] at at_j
      cases at_j
    · rw [Function.update_of_ne mine] at at_j
      exact absurd (alone (by rw [at_j]; trivial)) mine
  · intro k val q t writes
    rcases inv.acting k val q t writes with same | ⟨j, flip, reads, _⟩
    · exact .inr ⟨i, .getStart, by rw [Function.update_self, same], trivial⟩
    · obtain rfl := alone (by rw [reads]; trivial : Locking (readers j))
      rw [here] at reads
      cases reads
  · intro j q unused
    by_cases mine : j = i
    · subst mine
      rw [Function.update_self] at unused
      cases unused
    · rw [Function.update_of_ne mine] at unused
      exact inv.fresh j q unused
  · intro j q retired
    by_cases mine : j = i
    · subst mine
      rw [Function.update_self] at retired
      cases retired
      have at_active := List.getElem?_eq_getElem inv.placed.active_lt
      refine ⟨_, at_active, fun entry => ?_⟩
      have balance := inv.conserved entry
      have unretired : ∀ k, retiredBy (readers k) = none := by
        intro k
        cases taken : retiredBy (readers k) with
        | none => rfl
        | some old =>
          obtain rfl := alone (locking_retired taken)
          rw [here] at taken
          cases taken
      have live := inv.live_logs unretired at_active entry
      rw [List.count_append]
      dsimp only
      omega
    · rw [Function.update_of_ne mine] at retired
      exact absurd (alone (locking_retired retired)) mine

omit [DecidableEq ι] in
/-- No writer is in a histogram that is not active and that no flip takes away. -/
theorem Inv.absent (inv : Inv c r writers readers) {p : ℕ} (inactive : p ≠ r.active)
    (unflipped : ∀ j flip, readers j ≠ some (.flip p flip)) :
    callAt p ∘ writers = fun _ => none := by
  funext k
  rw [Function.comp_apply]
  cases here : writers k with
  | none => rfl
  | some w =>
    cases w with
    | loadActive val call | exit val call result => rfl
    | update val q t =>
      refine if_neg ?_
      rintro rfl
      rcases inv.acting k val q t here with same | ⟨j, flip, reads, _⟩
      · exact inactive same
      · exact unflipped j flip reads

/-- A reader gives the mutex back and returns its sample. -/
theorem Inv.unlock (inv : Inv c r writers readers) {i : ι} {oldActive : ℕ} {sample : Recorded}
    (here : readers i = some (.unlock oldActive))
    (at_old : r.histograms[oldActive]? = some sample) :
    Inv c { r with
      phaser := r.phaser.hdrPhaserReaderUnlock
      held := r.held ++ [(oldActive, sample)]
      samples := r.samples ++ [⟨sample, r.replaced⟩] } writers
      (Function.update readers i none) := by
  have locks : Locking (readers i) := by rw [here]; trivial
  obtain ⟨is_locked, locking, phased⟩ := inv.holds locks
  have alone {j : ι} (locks : Locking (readers j)) : j = i :=
    (Option.some.inj ((locking j).mp locks)).symm
  have retires : retiredBy (readers i) = some oldActive := by rw [here, retiredBy]
  have owns := ownedBy_retired retires
  have apart := (inv.placed.owned i oldActive owns).2.1
  have accounts := inv.accounts oldActive sample at_old
  have left := inv.absent apart (by
    intro j flip reads
    obtain rfl := alone (by rw [reads]; trivial : Locking (readers j))
    rw [here] at reads
    cases reads)
  refine { inv with
    locked := ⟨none, rfl, ?_, ?_⟩
    placed := ?_
    stored := ?_
    acting := ?_
    kept := ?_
    fresh := ?_
    retired := ?_
    taken := ?_
    samples := ?_
    ordered := ?_
    conserved := ?_ }
  · intro j
    by_cases mine : j = i
    · subst mine
      rw [Function.update_self]
      constructor
      · rintro ⟨⟩
      · rintro ⟨⟩
    · rw [Function.update_of_ne mine]
      constructor
      · intro locks
        exact absurd (alone locks) mine
      · rintro ⟨⟩
  · rw [here, flipOf] at phased
    exact ⟨phased.started, phased.balance, phased.flipping⟩
  · rw [Function.comp_update, List.map_append]
    exact inv.placed.give owns
  · intro j p old at_j
    by_cases mine : j = i
    · subst mine
      rw [Function.update_self] at at_j
      cases at_j
    · rw [Function.update_of_ne mine] at at_j
      exact inv.stored j p old at_j
  · intro k val p t writes
    refine (inv.acting k val p t writes).imp_right ?_
    rintro ⟨j, flip, reads, behind⟩
    have other : j ≠ i := by
      rintro rfl
      rw [here] at reads
      cases reads
    exact ⟨j, flip, by rwa [Function.update_of_ne other], behind⟩
  · intro e member
    rcases List.mem_append.mp member with old | new
    · exact inv.kept e old
    · rw [List.mem_singleton.mp new]
      exact at_old
  · intro j p unused
    rw [view_update unusedBy readers (by rw [here]; rfl)] at unused
    exact inv.fresh j p unused
  · intro j p retired
    by_cases mine : j = i
    · subst mine
      rw [Function.update_self] at retired
      cases retired
    · rw [Function.update_of_ne mine] at retired
      exact absurd (alone (locking_retired retired)) mine
  · intro e member
    rw [List.map_append]
    rcases List.mem_append.mp member with old | new
    · exact List.mem_append_left _ (inv.taken e old)
    · rw [List.mem_singleton.mp new]
      exact List.mem_append_right _ (List.mem_singleton.mpr rfl)
  · intro s member
    rcases List.mem_append.mp member with old | new
    · exact inv.samples s old
    · rw [List.mem_singleton.mp new]
      exact ⟨accounts.config, accounts.flags, accounts.holds fun k => congrFun left k⟩
  · intro k s at_k entry
    rcases Nat.lt_or_ge k r.samples.length with earlier | last
    · rw [List.getElem?_append_left earlier] at at_k
      rw [List.take_append_of_le_length earlier]
      exact inv.ordered k s at_k entry
    · obtain ⟨s', at_old', before⟩ := inv.retired i oldActive retires
      rw [at_old] at at_old'
      cases at_old'
      have whole : (r.samples ++ [Sample.mk sample r.replaced]).take (k + 1) =
          r.samples ++ [Sample.mk sample r.replaced] := by
        apply List.take_of_length_le
        rw [List.length_append, List.length_singleton]
        omega
      rw [List.getElem?_append_right last, List.getElem?_singleton] at at_k
      split at at_k
      · cases at_k
        rw [whole, sampleLogs_append]
        exact before entry
      · cases at_k
  · intro entry
    have before := inv.conserved entry
    rw [List.map_append, logs_append, sampleLogs_append, List.count_append, List.map_cons,
      List.map_nil, logs_singleton]
    dsimp only
    omega

/-- What a reader that begins has to keep. -/
theorem Inv.began (inv : Inv c r writers readers) {i : ι} (free : readers i = none) {p : ℕ}
    {histograms : List Recorded} {held : List (ℕ × Recorded)}
    (placed : Placed histograms.length r.active (held.map Prod.fst)
      (Function.update (ownedBy ∘ readers) i (some p)))
    (accounts : ∀ q s, histograms[q]? = some s → Accounts c s (callAt q ∘ writers))
    (others : ∀ q s, r.histograms[q]? = some s → q ∉ r.held.map Prod.fst →
      histograms[q]? = some s)
    (new : ∃ s, histograms[p]? = some s ∧ s.returned = [])
    (kept : ∀ e ∈ held, histograms[e.1]? = some e.2) (fewer : held ⊆ r.held)
    (conserved : ∀ entry, (logs histograms).count entry + (logs (r.held.map Prod.snd)).count entry =
      (logs r.histograms).count entry + (logs (held.map Prod.snd)).count entry) :
    Inv c { r with histograms := histograms, held := held } writers
      (Function.update readers i (some (.lock p))) := by
  obtain ⟨holder, is_locked, locking, phased⟩ := inv.locked
  refine {
    locked := ⟨holder, is_locked, locking_update locking (by rw [free]; rfl), ?_⟩
    placed := ?_
    stored := ?_
    acting := ?_
    accounts := accounts
    kept := kept
    fresh := ?_
    retired := ?_
    taken := fun e member => inv.taken e (fewer member)
    samples := inv.samples
    ordered := inv.ordered
    conserved := ?_ }
  · have same : flipOf ∘ Function.update readers i (some (.lock p)) = flipOf ∘ readers := by
      have idle : (flipOf ∘ readers) i = none := by rw [Function.comp_apply, free, flipOf]
      rw [Function.comp_update, flipOf, ← idle, Function.update_eq_self]
    rw [same]
    exact phased
  · rw [Function.comp_update]
    exact placed
  · intro j q old at_j
    by_cases mine : j = i
    · subst mine
      rw [Function.update_self] at at_j
      cases at_j
    · rw [Function.update_of_ne mine] at at_j
      exact inv.stored j q old at_j
  · intro k val q t writes
    refine (inv.acting k val q t writes).imp_right ?_
    rintro ⟨j, flip, reads, behind⟩
    have other : j ≠ i := by
      rintro rfl
      rw [free] at reads
      cases reads
    exact ⟨j, flip, by rwa [Function.update_of_ne other], behind⟩
  · intro j q unused
    by_cases mine : j = i
    · subst mine
      rw [Function.update_self] at unused
      cases unused
      exact new
    · rw [Function.update_of_ne mine] at unused
      obtain ⟨s, at_q, empty⟩ := inv.fresh j q unused
      exact ⟨s, others q s at_q (inv.placed.owned j q (ownedBy_unused unused)).2.2, empty⟩
  · intro j q retired
    rw [view_update retiredBy readers (by rw [free]; rfl)] at retired
    obtain ⟨s, at_q, before⟩ := inv.retired j q retired
    exact ⟨s, others q s at_q (inv.placed.owned j q (ownedBy_retired retired)).2.2, before⟩
  · intro entry
    have before := inv.conserved entry
    have moved := conserved entry
    dsimp only
    omega

theorem ofNat_toNat64 {x : Int64} (nonneg : 0 ≤ x.toInt) : Int64.ofNat x.toInt.toNat = x := by
  have := x.toInt_lt
  rw [← Int64.toInt_inj, Int64.toInt_ofNat_of_lt (by omega)]
  omega

theorem ofNat_toNat32 {x : Int32} (nonneg : 0 ≤ x.toInt) : Int32.ofNat x.toInt.toNat = x := by
  have := x.toInt_lt
  rw [← Int32.toInt_inj, Int32.toInt_ofNat_of_lt (by omega)]
  omega

/-- The arguments that a configuration keeps give it again. -/
def Reproduced (c : BucketConfig) : Prop :=
  hdrCalculateBucketConfig (.ofNat c.lowestDiscernibleValue) (.ofNat c.highestTrackableValue)
    (.ofNat c.significantFigures) = .ok c

theorem reproduced {lowest highest : Int64} {figures : Int32} {c : BucketConfig}
    (accepted : hdrCalculateBucketConfig lowest highest figures = .ok c) : Reproduced c := by
  have keeps := hdrCalculateBucketConfig_keeps accepted
  rw [Reproduced, keeps.lowest, keeps.highest, keeps.figures, ofNat_toNat64 keeps.lowest_nonneg,
    ofNat_toNat64 keeps.highest_nonneg, ofNat_toNat32 keeps.figures_nonneg]
  exact accepted

/-- A reader makes a histogram. -/
theorem Inv.make (inv : Inv c r writers readers) {i : ι} (free : readers i = none) {h : Histogram}
    (config : h.config = c) (holds : Holds h []) :
    Inv c { r with histograms := r.histograms ++ [⟨h, []⟩] } writers
      (Function.update readers i (some (.lock r.histograms.length))) := by
  have placed := inv.placed
  have idle : (ownedBy ∘ readers) i = none := by rw [Function.comp_apply, free]; rfl
  refine inv.began free ?_ ?_ ?_ ⟨_, List.getElem?_concat_length, rfl⟩ ?_ (List.Subset.refl _) ?_
  · rw [List.length_append]
    exact placed.make idle
  · intro q s at_q
    rcases Nat.lt_or_ge q r.histograms.length with old | new
    · rw [List.getElem?_append_left old] at at_q
      exact inv.accounts q s at_q
    · have last : q = r.histograms.length := by
        have := (List.getElem?_eq_some_iff.mp at_q).1
        rw [List.length_append, List.length_singleton] at this
        omega
      subst last
      rw [List.getElem?_concat_length] at at_q
      cases at_q
      rw [inv.absent (Nat.ne_of_gt placed.active_lt), ← config]
      · exact Accounts.init holds
      · intro j flip reads
        have retired : retiredBy (readers j) = some r.histograms.length := by
          rw [reads, retiredBy]
        exact Nat.lt_irrefl _ (placed.owned j _ (ownedBy_retired retired)).1
  · intro q s at_q _
    exact (List.getElem?_append_left (List.getElem?_eq_some_iff.mp at_q).1).trans at_q
  · intro e member
    rw [List.getElem?_append_left (placed.held_lt e.1 (List.mem_map_of_mem member))]
    exact inv.kept e member
  · intro entry
    rw [logs_append, logs_singleton, List.count_nil, Nat.add_zero]

/-- A reader resets a sample. -/
theorem Inv.takeBack (inv : Inv c r writers readers) {i : ι} (free : readers i = none) {p : ℕ}
    (member : p ∈ r.held.map Prod.fst) {s : Recorded} (at_p : r.histograms[p]? = some s) :
    Inv c { r with
      histograms := r.histograms.set p ⟨s.histogram.hdrReset, []⟩
      held := r.held.filter (·.1 ≠ p) } writers (Function.update readers i (some (.lock p))) := by
  have placed := inv.placed
  have idle : (ownedBy ∘ readers) i = none := by rw [Function.comp_apply, free]; rfl
  have here_p := (List.getElem?_eq_some_iff.mp at_p).1
  refine inv.began free ?_ ?_ ?_ ⟨_, List.getElem?_set_self here_p, rfl⟩ ?_
    List.filter_sublist.subset ?_
  · have keys : (r.held.filter (·.1 ≠ p)).map Prod.fst = (r.held.map Prod.fst).filter (· ≠ p) := by
      rw [List.filter_map]
      rfl
    rw [List.length_set, keys]
    exact placed.take idle member
  · intro q s' at_q
    by_cases mine : q = p
    · subst mine
      rw [List.getElem?_set_self here_p] at at_q
      cases at_q
      have accounts := inv.accounts q s at_p
      rw [inv.absent, ← accounts.config]
      · exact Accounts.init (holds_hdrReset accounts.offset)
      · rintro rfl
        exact placed.active_free member
      · intro j flip reads
        have retired : retiredBy (readers j) = some q := by rw [reads, retiredBy]
        exact (placed.owned j q (ownedBy_retired retired)).2.2 member
    · rw [List.getElem?_set_ne (Ne.symm mine)] at at_q
      exact inv.accounts q s' at_q
  · intro q s' at_q unheld
    refine (List.getElem?_set_ne ?_).trans at_q
    rintro rfl
    exact unheld member
  · intro e kept
    obtain ⟨old, other⟩ := List.mem_filter.mp kept
    rw [List.getElem?_set_ne (of_decide_eq_true other).symm]
    exact inv.kept e old
  · intro entry
    obtain ⟨e, held, rfl⟩ := List.mem_map.mp member
    have same := (inv.kept e held).symm.trans at_p
    have log := logs_held placed.held_nodup held entry
    have moved := logs_set at_p ⟨s.histogram.hdrReset, []⟩ entry
    rw [Option.some.inj same] at log
    rw [List.count_nil] at moved
    omega

/-- What a thread does before it takes the mutex. -/
theorem Inv.recycle (inv : Inv c r writers readers) (again : Reproduced c) {i : ι}
    (free : readers i = none) {histogramToRecycle : Option ℕ} {r' : Recorder} {reader : Reader}
    (recycled : r.recycle histogramToRecycle = some (r', reader)) :
    Inv c r' writers (Function.update readers i (some reader)) := by
  cases histogramToRecycle with
  | none =>
    dsimp only [Recorder.recycle] at recycled
    split at recycled
    · cases recycled
    next active returned at_active =>
      have config := (inv.accounts _ _ at_active).config
      dsimp only at config
      split at recycled
      · cases recycled
      next h made =>
        cases recycled
        obtain ⟨accepted, holds⟩ := hdrInit_spec made
        rw [config, again] at accepted
        exact inv.make free (Except.ok.inj accepted).symm holds
  | some p =>
    dsimp only [Recorder.recycle] at recycled
    split at recycled
    next member =>
      split at recycled
      · cases recycled
      next h returned at_p =>
        cases recycled
        exact inv.takeBack free member at_p
    · cases recycled

theorem Inv.readerStep (inv : Inv c r writers readers) {i : ι} {reader' : Reader}
    (here : readers i = some reader') {r' : Recorder} {l : Thread}
    (stepped : r.readerStep reader' = some (r', l)) :
    Inv c r' writers (Function.update readers i (reader l)) ∧ writer l = none := by
  cases reader' with
  | lock p =>
    dsimp only [Recorder.readerStep] at stepped
    split at stepped
    · cases stepped
    next phaser locked =>
      cases stepped
      unfold Phaser.hdrPhaserReaderLock at locked
      split at locked
      · cases locked
      next free =>
        cases locked
        exact ⟨inv.lock here (Bool.eq_false_iff.mpr free), rfl⟩
  | loadActive p =>
    cases stepped
    exact ⟨inv.loadActive here, rfl⟩
  | storeActive p oldActive =>
    cases stepped
    exact ⟨inv.storeActive here, rfl⟩
  | flip oldActive flip =>
    have moved := inv.flip here
    dsimp only [Recorder.readerStep] at stepped
    split at stepped
    next phaser next operated =>
      cases stepped
      rw [operated] at moved
      exact ⟨moved, rfl⟩
    next phaser operated =>
      cases stepped
      rw [operated] at moved
      exact ⟨moved, rfl⟩
  | unlock oldActive =>
    dsimp only [Recorder.readerStep] at stepped
    split at stepped
    · cases stepped
    next sample at_old =>
      cases stepped
      exact ⟨inv.unlock here at_old, rfl⟩

end Readers

/-- The recordings that a thread is in. -/
def recordingsIn : Thread → ℕ
  | .writing _ => 1
  | .idle | .reading _ => 0

/-- A writer that goes on is still inside, and one that leaves has returned its call. -/
theorem writerStep_entries {r r' : Recorder} {w : Writer} {l : Thread}
    (stepped : r.writerStep w = some (r', l)) : r'.entries = r.entries ∧
      r'.returned.length + recordingsIn l = r.returned.length + 1 := by
  cases w with
  | loadActive val call =>
    dsimp only [Recorder.writerStep] at stepped
    split at stepped
    · cases stepped
    · cases stepped
      obtain ⟨_, acted, _⟩ := act_spec r val r.active call _ _ _
      rw [acted]
      exact ⟨rfl, rfl⟩
  | update val active t =>
    dsimp only [Recorder.writerStep] at stepped
    split at stepped
    · cases stepped
    · cases stepped
      obtain ⟨_, acted, _⟩ := act_spec r val active t.call _ _ _
      rw [acted]
      exact ⟨rfl, rfl⟩
  | exit val call result =>
    cases stepped
    exact ⟨rfl, List.length_append⟩

theorem recycle_entries {r r' : Recorder} {histogramToRecycle : Option ℕ} {reader : Reader}
    (recycled : r.recycle histogramToRecycle = some (r', reader)) :
    r'.entries = r.entries ∧ r'.returned = r.returned := by
  unfold Recorder.recycle at recycled
  split at recycled
  · split at recycled
    · cases recycled
    · split at recycled <;> cases recycled
      exact ⟨rfl, rfl⟩
  · split at recycled
    · split at recycled <;> cases recycled
      exact ⟨rfl, rfl⟩
    · cases recycled

theorem readerStep_entries {r r' : Recorder} {reader : Reader} {l : Thread}
    (stepped : r.readerStep reader = some (r', l)) :
    r'.entries = r.entries ∧ r'.returned = r.returned ∧ recordingsIn l = 0 := by
  unfold Recorder.readerStep at stepped
  split at stepped
  · split at stepped <;> cases stepped
    exact ⟨rfl, rfl, rfl⟩
  · cases stepped
    exact ⟨rfl, rfl, rfl⟩
  · cases stepped
    exact ⟨rfl, rfl, rfl⟩
  · split at stepped <;> cases stepped <;> exact ⟨rfl, rfl, rfl⟩
  · split at stepped <;> cases stepped
    exact ⟨rfl, rfl, rfl⟩

/-- What a step adds to the entries has returned or is inside. -/
theorem entries_balance {r r' : Recorder} {l l' : Thread} {request : Request}
    (stepped : intervalRecorder request r l = some (r', l')) :
    r.entries ≤ r'.entries ∧ r'.returned.length + recordingsIn l' + r.entries =
      r.returned.length + recordingsIn l + r'.entries := by
  cases l with
  | idle =>
    cases request with
    | record call =>
      cases stepped
      exact ⟨Nat.le_succ _, Nat.add_right_comm ..⟩
    | sample histogramToRecycle =>
      dsimp only [intervalRecorder] at stepped
      split at stepped
      · cases stepped
      next next reader recycled =>
        cases stepped
        obtain ⟨entries, returned⟩ := recycle_entries recycled
        rw [entries, returned]
        exact ⟨Nat.le_refl _, rfl⟩
  | writing w =>
    obtain ⟨entries, returned⟩ := writerStep_entries stepped
    rw [entries, returned]
    exact ⟨Nat.le_refl _, rfl⟩
  | reading reader =>
    obtain ⟨entries, returned, outside⟩ := readerStep_entries stepped
    rw [entries, returned, outside]
    exact ⟨Nat.le_refl _, rfl⟩

omit [DecidableEq ι] in
theorem Inv.init {h : Histogram} (holds : Holds h []) :
    Inv h.config (hdrIntervalRecorderInitAll h) (fun _ : ι => none) fun _ => none where
  locked := ⟨none, rfl, fun _ => ⟨fun impossible => impossible.elim, nofun⟩, phased_init⟩
  placed := placed_init
  stored := fun _ _ _ => nofun
  acting := fun _ _ _ _ => nofun
  accounts := by
    intro p s at_p
    cases p with
    | zero =>
      cases at_p
      exact Accounts.init holds
    | succ p => cases at_p
  kept := fun _ member => nomatch member
  fresh := fun _ _ => nofun
  retired := fun _ _ => nofun
  taken := fun _ member => nomatch member
  samples := fun _ member => nomatch member
  ordered := fun _ _ => nofun
  conserved := by
    intro entry
    simp only [leaving, List.count_nil, Finset.sum_const_zero]
    rfl

theorem inv_reachable {lowest highest : Int64} {figures : Int32} {h : Histogram}
    (created : hdrInit lowest highest figures = .ok h) {s : System ι Recorder Thread}
    (reached : Reachable intervalRecorder ⟨hdrIntervalRecorderInitAll h, fun _ => .idle⟩ s)
    (few : s.shared.entries < 2 ^ 63) :
    Inv h.config s.shared (writer ∘ s.threads) (reader ∘ s.threads) := by
  obtain ⟨accepted, holds⟩ := hdrInit_spec created
  refine reached.invariant (fun s => s.shared.entries < 2 ^ 63 →
    Inv h.config s.shared (writer ∘ s.threads) (reader ∘ s.threads)) (fun _ => Inv.init holds) ?_ few
  intro s i request shared local' before moved few
  have inv := before (Nat.lt_of_le_of_lt (entries_balance moved).1 few)
  dsimp only at few ⊢
  rw [Function.comp_update, Function.comp_update]
  unfold intervalRecorder at moved
  cases here : s.threads i with
  | idle =>
    have no_writer : (writer ∘ s.threads) i = none := by rw [Function.comp_apply, here, writer]
    have no_reader : (reader ∘ s.threads) i = none := by rw [Function.comp_apply, here, reader]
    rw [here] at moved
    cases request with
    | record call =>
      cases moved
      rw [reader, ← no_reader, Function.update_eq_self]
      exact inv.enter no_writer call few
    | sample histogramToRecycle =>
      dsimp only at moved
      split at moved
      · cases moved
      next next began recycled =>
        cases moved
        rw [writer, ← no_writer, Function.update_eq_self]
        exact inv.recycle (reproduced accepted) no_reader recycled
  | writing w =>
    have writes : (writer ∘ s.threads) i = some w := by rw [Function.comp_apply, here, writer]
    have no_reader : (reader ∘ s.threads) i = none := by rw [Function.comp_apply, here, reader]
    rw [here] at moved
    obtain ⟨kept, none_after⟩ := inv.writerStep writes moved
    rw [none_after, ← no_reader, Function.update_eq_self]
    exact kept
  | reading reading =>
    have no_writer : (writer ∘ s.threads) i = none := by rw [Function.comp_apply, here, writer]
    have reads : (reader ∘ s.threads) i = some reading := by
      rw [Function.comp_apply, here, reader]
    rw [here] at moved
    obtain ⟨kept, none_after⟩ := inv.readerStep reads moved
    rw [none_after, ← no_writer, Function.update_eq_self]
    exact kept

/-- Recordings and samples from many threads under every schedule. Every sample tells for each
of its calls whether its value was tracked, and stays as it was returned while it is held. It
answers by the values of its calls if they are few enough for its sums, and for its ranks. -/
theorem samples_answer {lowest highest : Int64} {figures : Int32} {h : Histogram}
    (created : hdrInit lowest highest figures = .ok h) {s : System ι Recorder Thread}
    (reached : Reachable intervalRecorder ⟨hdrIntervalRecorderInitAll h, fun _ => .idle⟩ s)
    (few : s.shared.entries < 2 ^ 63) :
    (∀ sample ∈ s.shared.samples.map Sample.recorded, sample.histogram.config = h.config ∧
      (∀ entry ∈ sample.returned, entry.2 = decide (Tracked h.config entry.1.value)) ∧
      ((loggedValues h.config sample.returned).length < 2 ^ 63 →
        Answers sample.histogram (loggedValues h.config sample.returned)) ∧
      ((loggedValues h.config sample.returned).length < 2 ^ 52 →
        Percentiles sample.histogram (loggedValues h.config sample.returned))) ∧
    ∀ e ∈ s.shared.held, e.2 ∈ s.shared.samples.map Sample.recorded ∧
      s.shared.histograms[e.1]? = some e.2 := by
  have inv := inv_reachable created reached few
  refine ⟨?_, fun e member => ⟨inv.taken e member, inv.kept e member⟩⟩
  intro sample member
  obtain ⟨s, present, rfl⟩ := List.mem_map.mp member
  obtain ⟨config, flags, holds⟩ := inv.samples s present
  exact ⟨config, flags, holds.answers config, percentiles_of_holds config holds⟩

/-- One thread records while the other takes a sample, which it gets when the first one has left. -/
def relay : List (Fin 2 × Request) :=
  List.replicate 3 (one, .record stepped) ++ List.replicate 5 (one, .record twice) ++
    List.replicate 9 (other, .sample none) ++ List.replicate 4 (one, .record twice) ++
    List.replicate 2 (other, .sample none) ++ List.replicate 14 (one, .record late)

/-- The thread that samples gets the two sevens, and the late value stays. -/
theorem relay_runs : (Library.Machine.run (interleave intervalRecorder)
    ⟨hdrIntervalRecorderInitAll tiny, fun _ : Fin 2 => .idle⟩ relay).any (fun r =>
      r.1.shared.entries < 2 ^ 63 ∧ r.1.shared.held.map Prod.fst = [0] ∧
      (∀ sample ∈ r.1.shared.samples.map Sample.recorded,
        loggedValues tiny.config sample.returned = [7, 7]) ∧ (∀ i, r.1.threads i = .idle) ∧
      r.1.shared.returned = [(stepped, false), (twice, true), (late, true)] ∧
      sampleLogs r.1.shared.samples = [(stepped, false), (twice, true)] ∧
      (r.1.shared.histograms[r.1.shared.active]?).all fun active =>
        (loggedValues tiny.config active.returned).length < 2 ^ 63) = true := by
  decide +kernel

theorem samples_answer_relay : ∃ s : System (Fin 2) Recorder Thread,
    Reachable intervalRecorder ⟨hdrIntervalRecorderInitAll tiny, fun _ => .idle⟩ s ∧
    s.shared.held.map Prod.fst = [0] ∧
    ∀ sample ∈ s.shared.samples.map Sample.recorded, Answers sample.histogram [7, 7] := by
  obtain ⟨⟨s, outs⟩, ran, checked⟩ := (Option.any_eq_true _ _).mp relay_runs
  obtain ⟨few, held, twoSevens, _⟩ := of_decide_eq_true checked
  obtain ⟨samples, _⟩ := samples_answer tiny_created ⟨relay, outs, ran⟩ few
  refine ⟨s, ⟨relay, outs, ran⟩, held, fun sample member => ?_⟩
  have answers := (samples sample member).2.2.1
  rw [twoSevens sample member] at answers
  exact answers (by decide)

/-- Each call is in one sample or still in the active histogram: a sample has, with those before
it, the calls that had returned when it was replaced, and when no thread is in a call the samples
and the active histogram have exactly the calls that returned. -/
theorem recordings_sampled_once {lowest highest : Int64} {figures : Int32} {h : Histogram}
    (created : hdrInit lowest highest figures = .ok h) {s : System ι Recorder Thread}
    (reached : Reachable intervalRecorder ⟨hdrIntervalRecorderInitAll h, fun _ => .idle⟩ s)
    (few : s.shared.entries < 2 ^ 63) :
    (∀ (k : ℕ) (sample : Sample), s.shared.samples[k]? = some sample →
      sample.replaced.Subperm (sampleLogs (s.shared.samples.take (k + 1)))) ∧
    ((∀ i, s.threads i = .idle) → ∃ active, s.shared.histograms[s.shared.active]? = some active ∧
      Holds active.histogram (slotsOf h.config (loggedValues h.config active.returned)) ∧
      ((loggedValues h.config active.returned).length < 2 ^ 63 →
        Answers active.histogram (loggedValues h.config active.returned)) ∧
      (sampleLogs s.shared.samples ++ active.returned).Perm s.shared.returned) := by
  have inv := inv_reachable created reached few
  constructor
  · intro k sample at_k
    rw [List.subperm_ext_iff]
    exact fun entry _ => inv.ordered k sample at_k entry
  · intro idle
    have unwritten : ∀ i, (writer ∘ s.threads) i = none := by
      intro i
      rw [Function.comp_apply, idle i, writer]
    have unretired : ∀ i, retiredBy ((reader ∘ s.threads) i) = none := by
      intro i
      rw [Function.comp_apply, idle i, reader, retiredBy]
    have at_active := List.getElem?_eq_getElem inv.placed.active_lt
    have accounts := inv.accounts _ _ at_active
    have holds := accounts.holds fun i => by rw [Function.comp_apply, unwritten i, callAt]
    refine ⟨_, at_active, holds, holds.answers accounts.config, ?_⟩
    rw [List.perm_iff_count]
    intro entry
    have balance := inv.conserved entry
    have live := inv.live_logs unretired at_active entry
    simp only [unwritten, leaving, List.count_nil, Finset.sum_const_zero] at balance
    rw [List.count_append]
    omega

theorem recordings_sampled_once_relay : ∃ s : System (Fin 2) Recorder Thread,
    Reachable intervalRecorder ⟨hdrIntervalRecorderInitAll tiny, fun _ => .idle⟩ s ∧
    s.shared.returned = [(stepped, false), (twice, true), (late, true)] ∧
    sampleLogs s.shared.samples = [(stepped, false), (twice, true)] ∧
    ∃ active, s.shared.histograms[s.shared.active]? = some active ∧
      Answers active.histogram (loggedValues tiny.config active.returned) := by
  obtain ⟨⟨s, outs⟩, ran, checked⟩ := (Option.any_eq_true _ _).mp relay_runs
  obtain ⟨few, _, _, idle, returned, sampled, countable⟩ := of_decide_eq_true checked
  obtain ⟨_, quiet⟩ := recordings_sampled_once tiny_created ⟨relay, outs, ran⟩ few
  obtain ⟨active, at_active, _, answers, _⟩ := quiet idle
  rw [at_active] at countable
  exact ⟨s, ⟨relay, outs, ran⟩, returned, sampled, active, at_active,
    answers (of_decide_eq_true countable)⟩

end YcsbCloud.Guarantees.HdrIntervalRecorder
