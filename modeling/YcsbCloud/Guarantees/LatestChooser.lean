import YcsbCloud.Source.SkewedLatest

/-!
# The latest chooser over a counter that moves

The zipfian generator behind the latest chooser lives through all sizes that the
counter has had. Its sum belongs to the largest of them and the number of items in
`eta_` to the first. A draw is still no more than the size it is asked for, whatever
the other sizes were, so what is subtracted from the newest key never exceeds it.
-/
namespace YcsbCloud.Guarantees.LatestChooser
open Library.Interleaving Source Source.SkewedLatestState

/-- A generator built for `n0` keys, after draws for any sizes. -/
def Grown (n0 : Nat) (zipfian : ZipfianState) : Prop :=
  ∃ nForZeta value, 2 ≤ nForZeta ∧
    zipfian = ZipfianState.settled ⟨n0, 0⟩ kZipfianConst nForZeta value

/-- Whatever the state has been through, a draw is defined and no more than it was
asked for. -/
theorem Grown.next {n0 : Nat} {zipfian : ZipfianState} (grown : Grown n0 zipfian) (items : 2 ≤ n0)
    {max : Nat} (size : 2 ≤ max ∧ max < kMaxNumItems) {u : ℝ} (small : u < 1) :
    ∃ value after, zipfian.next max u = some (value, after) ∧ Grown n0 after ∧ value ≤ max := by
  obtain ⟨nForZeta, last, two, rfl⟩ := grown
  obtain ⟨value, moved, drawn⟩ :=
    ZipfianState.next_rank kZipfianConst_range items two size small last
  have bounded := drawn.le (Nat.zero_lt_of_lt size.1)
  exact ⟨value, _, moved, ⟨_, value, le_max_of_le_left two, rfl⟩, by simpa using bounded⟩

/-- The assertion of `Next` admits no other sizes. -/
theorem next_size {zipfian after : ZipfianState} {max value : Nat} {u : ℝ}
    (moved : zipfian.next max u = some (value, after)) : 2 ≤ max ∧ max < kMaxNumItems := by
  by_contra outside
  rw [ZipfianState.next, if_neg outside] at moved
  cases moved

/-- What the generator draws is among what the chooser with ranks up to the number of
items can return. -/
theorem Grown.canDraw {n0 : Nat} {zipfian : ZipfianState} (grown : Grown n0 zipfian)
    (items : 2 ≤ n0) (generator : ZipfianGenerator) {basis : CounterGenerator} {u : ℝ}
    (small : u < 1) {value : Nat} {after : ZipfianState}
    (moved : zipfian.next basis.last u = some (value, after)) :
    (KeyChooser.skewedLatest generator).canDraw (fun items rank => decide (rank ≤ items)) basis
      (subU64 basis.last value) := by
  have size := next_size moved
  obtain ⟨drawn, _, same, _, below⟩ := grown.next items size small
  rw [moved, Option.some.injEq, Prod.mk.injEq] at same
  rw [← same.1] at below
  refine ⟨value, ?_⟩
  rw [KeyChooser.next, if_pos ⟨size.1, size.2, decide_eq_true below⟩]

/-- What a thread in the loop relies on. -/
def Bounded : Position → Prop
  | .next | .loaded _ | .returned _ => True
  | .drew max value => value ≤ max ∧ max < 2 ^ 64
  | .test max keyNum => keyNum ≤ max

/-- One step keeps the generator's state and what its thread relies on. -/
theorem step_bounded {n0 : Nat} (items : 2 ≤ n0) {event : Event} {s s' : Shared}
    {l l' : Position} (grown : Grown n0 s.keyChooser.zipfian) (bounded : Bounded l)
    (moved : nextTransactionKey event s l = some (s', l')) :
    Grown n0 s'.keyChooser.zipfian ∧ Bounded l' := by
  cases nextTransactionKey_moves moved with
  | counter l insertKeySequence => exact ⟨grown, bounded⟩
  | load => exact ⟨grown, trivial⟩
  | draw max value u zipfian range drawn =>
    have size := next_size drawn
    have small : max < 2 ^ 64 := by
      unfold kMaxNumItems at size
      omega
    obtain ⟨drawnValue, after, same, kept, below⟩ := grown.next items size range.2
    rw [drawn, Option.some.injEq, Prod.mk.injEq] at same
    rw [← same.1] at below
    rw [← same.2] at kept
    exact ⟨kept, below, small⟩
  | subtract max value keyNum difference =>
    rw [subU64_of_le _ _ bounded.1 bounded.2] at difference
    exact ⟨grown, difference.trans_le (Nat.sub_le max value)⟩
  | reject max keyNum => exact ⟨grown, trivial⟩
  | accept max keyNum eligible => exact ⟨grown, trivial⟩
  | again keyNum => exact ⟨grown, trivial⟩

variable {ι : Type} [DecidableEq ι]

/-- In every state that a schedule reaches. -/
theorem reached_bounded {n0 : Nat} (items : 2 ≤ n0) {basis : CounterGenerator}
    {keyChooser : SkewedLatestState} (grown : Grown n0 keyChooser.zipfian)
    {c : System ι Shared Position}
    (reached : Reachable nextTransactionKey (launch basis keyChooser) c) :
    Grown n0 c.shared.keyChooser.zipfian ∧ ∀ i, Bounded (c.threads i) := by
  refine reached.each_thread (fun s => Grown n0 s.keyChooser.zipfian) (fun _ l => Bounded l) grown
    (fun _ => trivial) ?_ ?_
  · intro event s l s' l' kept bounded moved
    exact step_bounded items kept bounded moved
  · intro event s l s' l' other bounded otherBounded moved
    exact otherBounded

/-- The constructor returns, and its own draw is a key. -/
theorem construct_grown {basis : CounterGenerator} {first second : ℝ}
    (size : 2 ≤ basis.last ∧ basis.last < kMaxNumItems) (early : first < 1) (late : second < 1) :
    ∃ keyChooser, construct basis first second = some keyChooser ∧ keyChooser.last ≤ basis.last ∧
      Grown basis.last keyChooser.zipfian := by
  have bound : basis.last < 2 ^ 64 := by
    unfold kMaxNumItems at size
    omega
  have one : subU64 basis.last 1 = basis.last - 1 := subU64_of_le _ _ (by omega) bound
  have count : basis.last - 1 - 0 + 1 = basis.last := by omega
  obtain ⟨value, built⟩ := ZipfianState.construct_settled (Nat.zero_le (basis.last - 1))
    (by omega) (by rw [count]; exact size) kZipfianConst_range early
  rw [count] at built
  obtain ⟨drawn, after, moved, grown, below⟩ :=
    Grown.next ⟨_, value, size.1, rfl⟩ size.1 size late
  refine ⟨⟨after, subU64 basis.last drawn⟩, ?_, ?_, grown⟩
  · rw [construct, one, built, Option.bind_eq_bind, Option.bind_some, moved, Option.bind_eq_bind,
      Option.bind_some]
  · dsimp only
    rw [subU64_of_le _ _ below bound]
    exact Nat.sub_le _ _

/-- What never goes wrong for a thread: it loads the newest key, a draw has a result, the
subtraction of it does not wrap, the key is at most the `max` that the counter gave, and
passes the test unless the counter has fallen below that meanwhile. What can be drawn is
what the chooser of the workload can return. -/
structure NeverUnderflows (c : System ι Shared Position) (i : ι) : Prop where
  loads : c.threads i = .next → ∀ u, nextTransactionKey (.advance u) c.shared (c.threads i) =
    some (c.shared, .loaded c.shared.insertKeySequence.last)
  draws : ∀ max, c.threads i = .loaded max → 2 ≤ max ∧ max < kMaxNumItems →
    ∀ u : ℝ, 0 ≤ u ∧ u < 1 → ∃ value after,
      c.shared.keyChooser.zipfian.next max u = some (value, after) ∧
      nextTransactionKey (.advance u) c.shared (c.threads i) =
        some ({ c.shared with keyChooser := { c.shared.keyChooser with zipfian := after } },
          .drew max value) ∧
      value ≤ max
  subtracts : ∀ max value, c.threads i = .drew max value → value ≤ max ∧
    ∀ u, nextTransactionKey (.advance u) c.shared (c.threads i) =
      some ({ c.shared with keyChooser := { c.shared.keyChooser with last := max - value } },
        .test max (max - value))
  keys : ∀ max keyNum, c.threads i = .test max keyNum → keyNum ≤ max
  accepts : ∀ max keyNum, c.threads i = .test max keyNum → max ≤ c.shared.insertKeySequence.last →
    ∀ u, nextTransactionKey (.advance u) c.shared (c.threads i) = some (c.shared, .returned keyNum)
  chosen : ∀ (u : ℝ) value after, u < 1 →
    c.shared.keyChooser.zipfian.next c.shared.insertKeySequence.last u = some (value, after) →
    ∀ generator, (KeyChooser.skewedLatest generator).canDraw
      (fun items rank => decide (rank ≤ items)) c.shared.insertKeySequence
      (subU64 c.shared.insertKeySequence.last value)

theorem reached_neverUnderflows {n0 : Nat} (items : 2 ≤ n0) {basis : CounterGenerator}
    {keyChooser : SkewedLatestState} (start : Grown n0 keyChooser.zipfian)
    {c : System ι Shared Position}
    (reached : Reachable nextTransactionKey (launch basis keyChooser) c) (i : ι) :
    NeverUnderflows c i := by
  obtain ⟨grown, every⟩ := reached_bounded items start reached
  have bounded := every i
  constructor
  · intro here u
    rw [here]
    rfl
  · intro max here asked u range
    obtain ⟨value, after, moved, _, below⟩ := grown.next items asked range.2
    refine ⟨value, after, moved, ?_, below⟩
    rw [here]
    simp only [nextTransactionKey, if_pos range, moved, Option.bind_eq_bind, Option.bind_some]
  · intro max value here
    rw [here] at bounded ⊢
    refine ⟨bounded.1, fun u => ?_⟩
    simp only [nextTransactionKey, subU64_of_le _ _ bounded.1 bounded.2]
  · intro max keyNum here
    rw [here] at bounded
    exact bounded
  · intro max keyNum here notLower u
    rw [here] at bounded ⊢
    have eligible : keyNum ≤ c.shared.insertKeySequence.last := bounded.trans notLower
    simp only [nextTransactionKey, if_neg (Nat.not_lt.mpr eligible)]
  · intro u value after small moved generator
    exact grown.canDraw items generator small moved

/-- A step of another thread, or of what moves the counter. -/
def Elsewhere (i : ι) (event : ι × Event) : Prop := event.1 ≠ i ∨ ∀ u, event.2 ≠ .advance u

/-- Meanwhile the thread stays where it is. -/
theorem elsewhere_threads {c c' : System ι Shared Position} {i : ι}
    (meanwhile : Leads nextTransactionKey (Elsewhere i) c c') : c'.threads i = c.threads i := by
  refine meanwhile.thread_eq ?_
  intro event s l s' l' elsewhere moved
  have counter := elsewhere.resolve_left (not_not_intro rfl)
  cases event with
  | counterNext =>
    cases moved
    rfl
  | counterSet start =>
    dsimp only [nextTransactionKey] at moved
    split at moved
    · cases moved
      rfl
    · cases moved
  | advance u => exact absurd rfl (counter u)

/-- The thread takes its next step and comes to a position. -/
def Comes (i : ι) (u : ℝ) (c c' : System ι Shared Position) (l : Position) : Prop :=
  interleave nextTransactionKey c (i, .advance u) = some (c', ()) ∧ c'.threads i = l

theorem comes_of_step {i : ι} {u : ℝ} {c : System ι Shared Position} {shared : Shared}
    {l : Position} (moved : nextTransactionKey (.advance u) c.shared (c.threads i) = some (shared, l)) :
    ∃ c', Comes i u c c' l ∧ c'.shared = shared :=
  ⟨_, ⟨(interleave_some ..).mpr ⟨shared, l, moved, rfl⟩, Function.update_self ..⟩, rfl⟩

/-- A call of the thread, with any draw and whatever happens elsewhere between its steps:
it loads `max`, draws a value of at most `max`, comes to the test with `max - value`, and
returns that key if the counter is not below `max` then. -/
def FirstDrawAccepted (c : System ι Shared Position) (i : ι) : Prop :=
  ∀ max, max = c.shared.insertKeySequence.last → 2 ≤ max ∧ max < kMaxNumItems →
  ∀ u : ℝ, 0 ≤ u ∧ u < 1 →
  ∃ c₁, Comes i u c c₁ (.loaded max) ∧
  ∀ c₂, Leads nextTransactionKey (Elsewhere i) c₁ c₂ →
  ∃ c₃ value, c₂.shared.keyChooser.zipfian.next max u =
      some (value, c₃.shared.keyChooser.zipfian) ∧
    Comes i u c₂ c₃ (.drew max value) ∧ value ≤ max ∧
  ∀ c₄, Leads nextTransactionKey (Elsewhere i) c₃ c₄ →
  ∃ c₅, Comes i u c₄ c₅ (.test max (max - value)) ∧
  ∀ c₆, Leads nextTransactionKey (Elsewhere i) c₅ c₆ → max ≤ c₆.shared.insertKeySequence.last →
  ∃ c₇, Comes i u c₆ c₇ (.returned (max - value))

theorem firstDraw_accepted {n0 : Nat} (items : 2 ≤ n0) {basis : CounterGenerator}
    {keyChooser : SkewedLatestState} (start : Grown n0 keyChooser.zipfian)
    {c : System ι Shared Position}
    (reached : Reachable nextTransactionKey (launch basis keyChooser) c) {i : ι}
    (here : c.threads i = .next) : FirstDrawAccepted c i := by
  intro max newest size u range
  have load := (reached_neverUnderflows items start reached i).loads here u
  rw [← newest] at load
  obtain ⟨c₁, first, _⟩ := comes_of_step load
  refine ⟨c₁, first, fun c₂ meanwhile => ?_⟩
  have reached₂ := (reached.step first.1).leads meanwhile
  have loaded := (elsewhere_threads meanwhile).trans first.2
  obtain ⟨value, after, drawn, moved, below⟩ :=
    (reached_neverUnderflows items start reached₂ i).draws _ loaded size u range
  obtain ⟨c₃, second, shared⟩ := comes_of_step moved
  refine ⟨c₃, value, by rw [shared]; exact drawn, second, below, fun c₄ meanwhile => ?_⟩
  have reached₄ := (reached₂.step second.1).leads meanwhile
  have drew := (elsewhere_threads meanwhile).trans second.2
  obtain ⟨c₅, third, _⟩ := comes_of_step
    (((reached_neverUnderflows items start reached₄ i).subtracts _ _ drew).2 u)
  refine ⟨c₅, third, fun c₆ meanwhile notLower => ?_⟩
  have reached₆ := (reached₄.step third.1).leads meanwhile
  have test := (elsewhere_threads meanwhile).trans third.2
  obtain ⟨c₇, fourth, _⟩ := comes_of_step
    ((reached_neverUnderflows items start reached₆ i).accepts _ _ test notLower u)
  exact ⟨c₇, fourth⟩

/-- From any first size on, under every schedule of the threads and of what moves the
counter: no step of a call underflows, and a call that finds a size in range goes through
all its steps and returns its first draw unless the counter falls meanwhile. -/
theorem latest_never_underflows (basis : CounterGenerator) (first second : ℝ)
    (size : 2 ≤ basis.last ∧ basis.last < kMaxNumItems) (early : 0 ≤ first ∧ first < 1)
    (late : 0 ≤ second ∧ second < 1) :
    ∃ keyChooser, construct basis first second = some keyChooser ∧
      keyChooser.last ≤ basis.last ∧
      ∀ c : System ι Shared Position,
        Reachable nextTransactionKey (launch basis keyChooser) c → ∀ i,
          NeverUnderflows c i ∧ (c.threads i = .next → FirstDrawAccepted c i) := by
  obtain ⟨keyChooser, built, key, start⟩ := construct_grown size early.2 late.2
  refine ⟨keyChooser, built, key, ?_⟩
  intro c reached i
  exact ⟨reached_neverUnderflows size.1 start reached i, firstDraw_accepted size.1 start reached⟩

/-- Built for two keys; the counter then moves on to three, one of two threads draws, the
counter is set to three again, and the thread returns its first draw. -/
theorem latest_never_underflows_two :
    ∃ (keyChooser : SkewedLatestState) (c : System (Fin 2) Shared Position) (value : Nat),
      construct ⟨3⟩ 0 (1 / 2) = some keyChooser ∧
      Reachable nextTransactionKey (launch ⟨3⟩ keyChooser) c ∧ value ≤ 3 ∧
      c.threads 1 = .returned (3 - value) := by
  obtain ⟨keyChooser, built, _, safe⟩ : ∃ keyChooser, construct ⟨3⟩ 0 (1 / 2) = some keyChooser ∧
      keyChooser.last ≤ 2 ∧ ∀ c : System (Fin 2) Shared Position,
        Reachable nextTransactionKey (launch ⟨3⟩ keyChooser) c → ∀ i,
          NeverUnderflows c i ∧ (c.threads i = .next → FirstDrawAccepted c i) :=
    latest_never_underflows ⟨3⟩ 0 (1 / 2) ⟨by decide, by decide⟩ ⟨le_refl 0, one_pos⟩
      ⟨one_half_pos.le, one_half_lt_one⟩
  have start : Reachable nextTransactionKey (launch ⟨3⟩ keyChooser)
      (⟨⟨⟨4⟩, keyChooser⟩, Function.update (fun _ => .next) 0 .next⟩ :
        System (Fin 2) Shared Position) := ⟨[(0, .counterNext)], [()], rfl⟩
  have three : CounterGenerator.last ⟨4⟩ = 3 := by decide
  obtain ⟨c₁, first, meanwhile⟩ := (safe _ start 1).2 rfl 3 three.symm ⟨by decide, by decide⟩
    (1 / 2) ⟨one_half_pos.le, one_half_lt_one⟩
  obtain ⟨c₃, value, _, second, below, meanwhile⟩ := meanwhile c₁ (Leads.refl ..)
  obtain ⟨c₅, third, meanwhile⟩ := meanwhile c₃ (Leads.refl ..)
  have reset : nextTransactionKey (.counterSet 4) c₅.shared (c₅.threads 0) =
      some ({ c₅.shared with insertKeySequence := ⟨4⟩ }, c₅.threads 0) := by
    dsimp only [nextTransactionKey]
    rw [if_pos (by decide)]
    rfl
  have elsewhere : Leads nextTransactionKey (Elsewhere 1) c₅ _ :=
    Leads.single reset (.inl (by decide))
  obtain ⟨c₇, fourth⟩ := meanwhile _ elsewhere three.ge
  exact ⟨keyChooser, c₇, value, built, ((((start.step first.1).step second.1).step third.1).leads
    elsewhere).step fourth.1, below, fourth.2⟩

end YcsbCloud.Guarantees.LatestChooser
