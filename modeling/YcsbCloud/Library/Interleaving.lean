import Mathlib.Algebra.BigOperators.Group.Finset.Basic
import Mathlib.Algebra.BigOperators.Group.Finset.Piecewise
import Mathlib.Data.Fintype.BigOperators
import YcsbCloud.Library.Machine

/-!
# Threads interleaved over shared state

A step of the program is one atomic step of one thread, chosen by an arbitrary
schedule. The rules below lift facts about a single thread's step to every
reachable state: a global invariant, an invariant of each thread that the other
threads do not disturb, and the conservation of a quantity that is kept once in
the shared state and once spread over the threads.
-/
namespace YcsbCloud.Library.Interleaving
open Machine

variable {ι σ τ α : Type*} [DecidableEq ι]

/-- What the threads share, and the local state of each. -/
structure System (ι σ τ : Type*) where
  shared : σ
  threads : ι → τ

/-- One atomic step of a thread under an input of its environment; `none` when
the thread cannot move. -/
abbrev Local (σ τ α : Type*) := α → σ → τ → Option (σ × τ)

/-- The machine whose inputs name the thread that moves. -/
def interleave (step : Local σ τ α) : Step (System ι σ τ) (ι × α) Unit := fun c event =>
  match step event.2 c.shared (c.threads event.1) with
  | none => none
  | some (shared, local') => some (⟨shared, Function.update c.threads event.1 local'⟩, ())

/-- Some schedule leads from the initial state to this one. -/
def Reachable (step : Local σ τ α) (init c : System ι σ τ) : Prop :=
  ∃ schedule outs, run (interleave step) init schedule = some (c, outs)

theorem interleave_some (step : Local σ τ α) (c next : System ι σ τ) (event : ι × α) (out : Unit) :
    interleave step c event = some (next, out) ↔
      ∃ shared local', step event.2 c.shared (c.threads event.1) = some (shared, local') ∧
        next = ⟨shared, Function.update c.threads event.1 local'⟩ := by
  unfold interleave
  split
  next stuck => simp [stuck]
  next shared local' moved =>
    simp only [moved, Option.some.injEq, Prod.mk.injEq, and_true]
    constructor
    · rintro rfl
      exact ⟨shared, local', ⟨rfl, rfl⟩, rfl⟩
    · rintro ⟨_, _, ⟨rfl, rfl⟩, rfl⟩
      rfl

/-- Global invariant rule. -/
theorem Reachable.invariant {step : Local σ τ α} {init c : System ι σ τ}
    (reached : Reachable step init c) (Inv : System ι σ τ → Prop) (start : Inv init)
    (preserved : ∀ (s : System ι σ τ) i a shared local', Inv s →
      step a s.shared (s.threads i) = some (shared, local') →
      Inv ⟨shared, Function.update s.threads i local'⟩) : Inv c := by
  obtain ⟨schedule, outs, ran⟩ := reached
  refine run_invariant (interleave step) (fun _ => True) Inv ?_ init c schedule outs start
    (fun _ _ => trivial) ran
  intro s event next out holds _ moved
  obtain ⟨shared, local', localMoved, rfl⟩ := (interleave_some ..).mp moved
  exact preserved s event.1 event.2 shared local' holds localMoved

/-- Shared invariant rule: a property of the shared state alone. -/
theorem Reachable.shared_invariant {step : Local σ τ α} {init c : System ι σ τ}
    (reached : Reachable step init c) (Inv : σ → Prop) (start : Inv init.shared)
    (preserved : ∀ a s l s' l', Inv s → step a s l = some (s', l') → Inv s') : Inv c.shared := by
  refine reached.invariant (fun s => Inv s.shared) start ?_
  intro s i a shared local' holds moved
  exact preserved a s.shared (s.threads i) shared local' holds moved

/-- Thread invariant rule: an invariant of the shared state together with one of
each thread. The mover keeps both, and does not disturb the other threads. -/
theorem Reachable.each_thread {step : Local σ τ α} {init c : System ι σ τ}
    (reached : Reachable step init c) (Global : σ → Prop) (Own : σ → τ → Prop)
    (start : Global init.shared) (startOwn : ∀ i, Own init.shared (init.threads i))
    (mover : ∀ a s l s' l', Global s → Own s l → step a s l = some (s', l') →
      Global s' ∧ Own s' l')
    (others : ∀ a s l s' l' other, Own s l → Own s other → step a s l = some (s', l') →
      Own s' other) :
    Global c.shared ∧ ∀ i, Own c.shared (c.threads i) := by
  refine reached.invariant (fun s => Global s.shared ∧ ∀ i, Own s.shared (s.threads i))
    ⟨start, startOwn⟩ ?_
  intro s j a shared local' holds moved
  have kept := mover a _ _ _ _ holds.1 (holds.2 j) moved
  refine ⟨kept.1, ?_⟩
  intro k
  dsimp only
  by_cases same : k = j
  · subst k
    rw [Function.update_self]
    exact kept.2
  · rw [Function.update_of_ne same]
    exact others a _ _ _ _ _ (holds.2 j) (holds.2 k) moved

/-- Updating one thread changes a sum over all threads by that thread's change. -/
theorem sum_update [Fintype ι] (f : τ → ℕ) (threads : ι → τ) (i : ι) (l : τ) :
    ∑ j, f (Function.update threads i l j) + f (threads i) = ∑ j, f (threads j) + f l := by
  have hupdate : ∀ j, f (Function.update threads i l j) =
      Function.update (fun j => f (threads j)) i (f l) j := by
    intro j
    exact Function.apply_update (fun _ => f) threads i l j
  rw [Finset.sum_congr rfl (fun j _ => hupdate j), Finset.sum_update_of_mem (Finset.mem_univ i),
    Finset.sum_eq_add_sum_sdiff_singleton_of_mem (Finset.mem_univ i) (fun j => f (threads j))]
  omega

/-- Conservation rule: when every step raises `g` of the shared state and `f` of the
thread that moves together by what it raises `h`, then `g` and the sum of `f`
over the threads follow `h`. -/
theorem Reachable.balanced [Fintype ι] {step : Local σ τ α} {init c : System ι σ τ}
    (reached : Reachable step init c) (g h : σ → ℕ) (f : τ → ℕ)
    (balance : ∀ a s l s' l', step a s l = some (s', l') →
      g s' + f l' + h s = g s + f l + h s') :
    g c.shared + ∑ i, f (c.threads i) + h init.shared =
      g init.shared + ∑ i, f (init.threads i) + h c.shared := by
  refine reached.invariant (fun s => g s.shared + ∑ i, f (s.threads i) + h init.shared =
    g init.shared + ∑ i, f (init.threads i) + h s.shared) rfl ?_
  intro s i a shared local' holds moved
  have step_balance := balance a s.shared (s.threads i) shared local' moved
  have sum_balance := sum_update f s.threads i local'
  dsimp only
  omega

/-- The case of one shared quantity, spread over the threads. -/
theorem Reachable.conserved [Fintype ι] {step : Local σ τ α} {init c : System ι σ τ}
    (reached : Reachable step init c) (g : σ → ℕ) (f : τ → ℕ)
    (balanced : ∀ a s l s' l', step a s l = some (s', l') → g s' + f l = g s + f l') :
    g c.shared + ∑ i, f (init.threads i) = g init.shared + ∑ i, f (c.threads i) := by
  have balance := reached.balanced (fun _ => 0) g f (by
    intro a s l s' l' moved
    have step_balance := balanced a s l s' l' moved
    omega)
  omega

theorem Reachable.step {step : Local σ τ α} {init c next : System ι σ τ} {event : ι × α}
    (reached : Reachable step init c) (moved : interleave step c event = some (next, ())) :
    Reachable step init next := by
  obtain ⟨schedule, outs, ran⟩ := reached
  refine ⟨schedule ++ [event], outs ++ [()], (run_append ..).mpr ?_⟩
  exact ⟨c, outs, [()], ran, (run_singleton ..).mpr ⟨(), moved, rfl⟩, rfl⟩

/-- What one thread can do next, it can do from any state reached. -/
theorem Reachable.advance {step : Local σ τ α} {init c : System ι σ τ} {i : ι} {a : α}
    {shared : σ} {local' : τ} (reached : Reachable step init c)
    (moved : step a c.shared (c.threads i) = some (shared, local')) :
    ∃ next, Reachable step init next ∧ next.shared = shared ∧ next.threads i = local' :=
  ⟨_, reached.step ((interleave_some step c _ (i, a) ()).mpr ⟨shared, local', moved, rfl⟩), rfl,
    Function.update_self ..⟩

/-- A schedule with steps of this kind only leads from one state to the other. -/
def Leads (step : Local σ τ α) (kind : ι × α → Prop) (s next : System ι σ τ) : Prop :=
  ∃ schedule outs, (∀ event ∈ schedule, kind event) ∧
    run (interleave step) s schedule = some (next, outs)

theorem Leads.refl (step : Local σ τ α) (kind : ι × α → Prop) (s : System ι σ τ) :
    Leads step kind s s := ⟨[], [], List.forall_mem_nil _, rfl⟩

theorem Leads.trans {step : Local σ τ α} {kind : ι × α → Prop} {s middle next : System ι σ τ}
    (first : Leads step kind s middle) (second : Leads step kind middle next) :
    Leads step kind s next := by
  obtain ⟨left, louts, leftKind, leftRan⟩ := first
  obtain ⟨right, routs, rightKind, rightRan⟩ := second
  refine ⟨left ++ right, louts ++ routs, ?_, (run_append ..).mpr ?_⟩
  · intro event member
    exact (List.mem_append.mp member).elim (leftKind event) (rightKind event)
  · exact ⟨middle, louts, routs, leftRan, rightRan, rfl⟩

theorem Leads.mono {step : Local σ τ α} {kind wider : ι × α → Prop} {s next : System ι σ τ}
    (leads : Leads step kind s next) (wide : ∀ event, kind event → wider event) :
    Leads step wider s next := by
  obtain ⟨schedule, outs, isKind, ran⟩ := leads
  exact ⟨schedule, outs, fun event member => wide event (isKind event member), ran⟩

/-- One thread moves. -/
theorem Leads.single {step : Local σ τ α} {kind : ι × α → Prop} {s : System ι σ τ} {i : ι} {a : α}
    {shared : σ} {local' : τ} (moved : step a s.shared (s.threads i) = some (shared, local'))
    (isKind : kind (i, a)) :
    Leads step kind s ⟨shared, Function.update s.threads i local'⟩ := by
  refine ⟨[(i, a)], [()], ?_, (run_singleton ..).mpr ⟨(), ?_, rfl⟩⟩
  · intro event member
    rwa [List.mem_singleton.mp member]
  · exact (interleave_some ..).mpr ⟨shared, local', moved, rfl⟩

/-- Steps that leave one thread where it is. -/
theorem Leads.thread_eq {step : Local σ τ α} {kind : ι × α → Prop} {s next : System ι σ τ} {i : ι}
    (leads : Leads step kind s next)
    (stays : ∀ a s l s' l', kind (i, a) → step a s l = some (s', l') → l' = l) :
    next.threads i = s.threads i := by
  obtain ⟨schedule, outs, isKind, ran⟩ := leads
  refine run_invariant (interleave step) kind (fun c => c.threads i = s.threads i) ?_ s next
    schedule outs rfl isKind ran
  intro c event next out same isKind moved
  obtain ⟨shared, local', stepped, rfl⟩ := (interleave_some ..).mp moved
  dsimp only
  by_cases own : i = event.1
  · subst own
    rw [Function.update_self, ← same]
    exact stays event.2 _ _ _ _ isKind stepped
  · rw [Function.update_of_ne own, same]

theorem Reachable.leads {step : Local σ τ α} {kind : ι × α → Prop} {init c next : System ι σ τ}
    (reached : Reachable step init c) (leads : Leads step kind c next) :
    Reachable step init next := by
  obtain ⟨left, louts, leftRan⟩ := reached
  obtain ⟨right, routs, _, rightRan⟩ := leads
  exact ⟨left ++ right, louts ++ routs, (run_append ..).mpr ⟨c, louts, routs, leftRan, rightRan, rfl⟩⟩

/-- Completion rule: when steps of a kind can always lower the work that is left until the
goal holds, and keep a condition, some schedule of such steps leads to the goal. -/
theorem Leads.completes {step : Local σ τ α} {kind : ι × α → Prop} {c : System ι σ τ}
    (Kept goal : System ι σ τ → Prop) (work : System ι σ τ → ℕ)
    (progress : ∀ s : System ι σ τ, Leads step kind c s → Kept s → ¬ goal s →
      ∃ next, Leads step kind s next ∧ Kept next ∧ work next < work s) (kept : Kept c) :
    ∃ final, Leads step kind c final ∧ Kept final ∧ goal final := by
  have later (s : System ι σ τ) (leads : Leads step kind c s) (kept : Kept s) :
      ∃ final, Leads step kind c final ∧ Kept final ∧ goal final := by
    induction left : work s using Nat.strong_induction_on generalizing s with
    | _ left ih =>
      by_cases arrived : goal s
      · exact ⟨s, leads, kept, arrived⟩
      · obtain ⟨next, onward, still, less⟩ := progress s leads kept arrived
        exact ih (work next) (by omega) next (leads.trans onward) still rfl
  exact later c (Leads.refl step kind c) kept

/-- Completion from a reachable state, when some thread can always lower the work. -/
theorem Reachable.completes {step : Local σ τ α} {init c : System ι σ τ}
    (goal : System ι σ τ → Prop) (work : System ι σ τ → ℕ)
    (progress : ∀ s : System ι σ τ, Reachable step init s → ¬ goal s → ∃ event next,
      interleave step s event = some (next, ()) ∧ work next < work s)
    (reached : Reachable step init c) : ∃ final, Reachable step init final ∧ goal final := by
  have completed : ∃ final, Leads step (fun _ => True) c final ∧ True ∧ goal final := by
    refine Leads.completes (fun _ => True) goal work ?_ trivial
    intro s leads _ unfinished
    obtain ⟨event, next, moved, less⟩ := progress s (reached.leads leads) unfinished
    obtain ⟨shared, local', stepped, rfl⟩ := (interleave_some ..).mp moved
    exact ⟨_, Leads.single stepped trivial, trivial, less⟩
  obtain ⟨final, leads, _, arrived⟩ := completed
  exact ⟨final, reached.leads leads, arrived⟩

end YcsbCloud.Library.Interleaving
