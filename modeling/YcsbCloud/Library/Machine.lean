import Mathlib.Logic.Basic
import Mathlib.Data.List.Basic
import Mathlib.Order.Basic

/-!
# Partial machines

A machine consumes one input at a time and yields a new state and an output, or
has no successor: the step is undefined or does not return. Runs, the invariant
rule and the forward simulation rule are stated once here, over arbitrary
states, inputs and outputs.
-/
namespace YcsbCloud.Library.Machine

variable {σ υ α β : Type*}

/-- One step of a machine; `none` is a step that has no result. -/
abbrev Step (σ α β : Type*) := σ → α → Option (σ × β)

/-- A whole run, with the outputs in the order of the inputs. -/
def run (step : Step σ α β) : σ → List α → Option (σ × List β)
  | s, [] => some (s, [])
  | s, a :: rest =>
    match step s a with
    | none => none
    | some (next, b) =>
      match run step next rest with
      | none => none
      | some (final, bs) => some (final, b :: bs)

@[simp] theorem run_nil (step : Step σ α β) (s : σ) : run step s [] = some (s, []) := rfl

theorem run_cons (step : Step σ α β) (s final : σ) (a : α) (rest : List α) (bs : List β) :
    run step s (a :: rest) = some (final, bs) ↔
      ∃ next b tail, step s a = some (next, b) ∧ run step next rest = some (final, tail) ∧
        bs = b :: tail := by
  constructor
  · intro h
    simp only [run] at h
    split at h
    · cases h
    next next b moved =>
      split at h
      · cases h
      next last tail ran =>
        simp only [Option.some.injEq, Prod.mk.injEq] at h
        obtain ⟨rfl, rfl⟩ := h
        exact ⟨next, b, tail, moved, ran, rfl⟩
  · rintro ⟨next, b, tail, moved, ran, rfl⟩
    simp only [run, moved, ran]

/-- Runs compose: a run over two input lists splits at the state between them. -/
theorem run_append (step : Step σ α β) (s final : σ) (left right : List α) (bs : List β) :
    run step s (left ++ right) = some (final, bs) ↔
      ∃ middle first second, run step s left = some (middle, first) ∧
        run step middle right = some (final, second) ∧ bs = first ++ second := by
  induction left generalizing s bs with
  | nil => simp
  | cons a rest ih =>
    rw [List.cons_append, run_cons]
    constructor
    · rintro ⟨next, b, tail, moved, ran, rfl⟩
      obtain ⟨middle, first, second, hl, hr, rfl⟩ := (ih next tail).mp ran
      have left_ran := (run_cons ..).mpr ⟨next, b, first, moved, hl, rfl⟩
      exact ⟨middle, b :: first, second, left_ran, hr, rfl⟩
    · rintro ⟨middle, first, second, hl, hr, rfl⟩
      obtain ⟨next, b, tail, moved, ran, rfl⟩ := (run_cons ..).mp hl
      have rest_ran := (ih next _).mpr ⟨middle, tail, second, ran, hr, rfl⟩
      exact ⟨next, b, tail ++ second, moved, rest_ran, rfl⟩

theorem run_singleton (step : Step σ α β) (s final : σ) (a : α) (bs : List β) :
    run step s [a] = some (final, bs) ↔ ∃ b, step s a = some (final, b) ∧ bs = [b] := by
  rw [run_cons]
  constructor
  · rintro ⟨next, b, tail, moved, ran, rfl⟩
    simp only [run_nil, Option.some.injEq, Prod.mk.injEq] at ran
    obtain ⟨rfl, rfl⟩ := ran
    exact ⟨b, moved, rfl⟩
  · rintro ⟨b, moved, rfl⟩
    exact ⟨final, b, [], moved, rfl, rfl⟩

/-- A step that always has a result runs as a fold. -/
theorem run_total (f : σ → α → σ) (s : σ) (inputs : List α) :
    run (fun s a => some (f s a, ())) s inputs =
      some (inputs.foldl f s, inputs.map fun _ => ()) := by
  induction inputs generalizing s with
  | nil => rfl
  | cons a rest ih => simp only [run, ih, List.foldl_cons, List.map_cons]

/-- Invariant rule: what every admitted step preserves holds after every run of
admitted inputs. -/
theorem run_invariant (step : Step σ α β) (admitted : α → Prop) (Inv : σ → Prop)
    (preserved : ∀ s a next b, Inv s → admitted a → step s a = some (next, b) → Inv next)
    (s final : σ) (inputs : List α) (bs : List β) (before : Inv s)
    (inputsAdmitted : ∀ a ∈ inputs, admitted a) (ran : run step s inputs = some (final, bs)) :
    Inv final := by
  induction inputs generalizing s bs with
  | nil =>
    simp only [run_nil, Option.some.injEq, Prod.mk.injEq] at ran
    exact ran.1 ▸ before
  | cons a rest ih =>
    obtain ⟨next, b, tail, moved, restRan, rfl⟩ := (run_cons ..).mp ran
    have stepped := preserved s a next b before (inputsAdmitted a (by simp)) moved
    exact ih next tail stepped (fun x member => inputsAdmitted x (by simp [member])) restRan

/-- Every step of a run meets a condition on the state before it and its input. -/
def Along (step : Step σ α β) (cond : σ → α → Prop) : σ → List α → Prop
  | _, [] => True
  | s, a :: rest => cond s a ∧ ∀ next b, step s a = some (next, b) → Along step cond next rest

theorem along_cons {step : Step σ α β} {cond : σ → α → Prop} {s next : σ} {a : α} {b : β}
    (moved : step s a = some (next, b)) (rest : List α) :
    Along step cond s (a :: rest) ↔ cond s a ∧ Along step cond next rest := by
  refine and_congr_right fun _ => ⟨fun later => later next b moved, ?_⟩
  intro later next' b' moved'
  rw [moved, Option.some.injEq, Prod.mk.injEq] at moved'
  exact moved'.1 ▸ later

instance decidableAlong {step : Step σ α β} {cond : σ → α → Prop} [∀ s a, Decidable (cond s a)]
    (s : σ) (inputs : List α) : Decidable (Along step cond s inputs) :=
  match inputs with
  | [] => isTrue trivial
  | a :: rest =>
    match moved : step s a with
    | none =>
      decidable_of_iff (cond s a) ⟨fun meets => ⟨meets, by simp [moved]⟩, And.left⟩
    | some (next, _) =>
      have _decided : Decidable (Along step cond next rest) := decidableAlong next rest
      decidable_of_iff (cond s a ∧ Along step cond next rest) (along_cons moved rest).symm

/-- The condition along a whole run, split at the state between two parts. -/
theorem along_append {step : Step σ α β} {cond : σ → α → Prop} {s middle : σ} {left right : List α}
    {bs : List β} (ran : run step s left = some (middle, bs)) :
    Along step cond s (left ++ right) ↔ Along step cond s left ∧ Along step cond middle right := by
  induction left generalizing s bs with
  | nil =>
    simp only [run_nil, Option.some.injEq, Prod.mk.injEq] at ran
    rw [List.nil_append, ran.1]
    exact (and_iff_right trivial).symm
  | cons a rest ih =>
    obtain ⟨next, b, tail, moved, restRan, _⟩ := (run_cons ..).mp ran
    rw [List.cons_append, along_cons moved, along_cons moved, ih restRan, and_assoc]

/-- Leak rule: when a step that meets the condition keeps a level and every other
step lowers it, no run raises the level, and a run keeps it exactly when all its
steps meet the condition. -/
theorem level_along {γ : Type*} [PartialOrder γ] {step : Step σ α β} {cond : σ → α → Prop}
    (Inv : σ → Prop) (level : σ → γ)
    (preserved : ∀ s a next b, Inv s → step s a = some (next, b) → Inv next)
    (kept : ∀ s a next b, Inv s → step s a = some (next, b) → cond s a → level next = level s)
    (lowered : ∀ s a next b, Inv s → step s a = some (next, b) → ¬ cond s a → level next < level s)
    {s final : σ} {inputs : List α} {bs : List β} (before : Inv s)
    (ran : run step s inputs = some (final, bs)) :
    level final ≤ level s ∧ (level final = level s ↔ Along step cond s inputs) := by
  induction inputs generalizing s bs with
  | nil =>
    simp only [run_nil, Option.some.injEq, Prod.mk.injEq] at ran
    rw [ran.1]
    exact ⟨le_refl _, iff_of_true rfl trivial⟩
  | cons a rest ih =>
    obtain ⟨next, b, tail, moved, restRan, _⟩ := (run_cons ..).mp ran
    obtain ⟨below, same⟩ := ih (preserved s a next b before moved) restRan
    rw [along_cons moved]
    by_cases meets : cond s a
    · have unchanged := kept s a next b before moved meets
      rw [unchanged] at below same
      rw [same]
      exact ⟨below, (and_iff_right meets).symm⟩
    · have less := lt_of_le_of_lt below (lowered s a next b before moved meets)
      exact ⟨le_of_lt less, iff_of_false (ne_of_lt less) fun both => meets both.1⟩

/-- A fallible computation that returns went through each of its parts. -/
theorem bind_success {ε γ δ : Type} {first : Except ε γ} {next : γ → Except ε δ} {result : δ}
    (returned : (first >>= next) = .ok result) : ∃ x, first = .ok x ∧ next x = .ok result := by
  cases first with
  | error fault => cases returned
  | ok x => exact ⟨x, rfl, returned⟩

theorem bind_ok_iff {ε γ δ : Type} {first : Except ε γ} {next : γ → Except ε δ} {result : δ} :
    (first >>= next) = .ok result ↔ ∃ x, first = .ok x ∧ next x = .ok result := by
  constructor
  · exact bind_success
  · intro ⟨x, done, finished⟩
    rw [done]
    exact finished

/-- A fallible computation that fails does so in one of its parts. -/
theorem bind_error {ε γ δ : Type} {first : Except ε γ} {next : γ → Except ε δ} {fault : ε}
    (failed : (first >>= next) = .error fault) :
    first = .error fault ∨ ∃ x, first = .ok x ∧ next x = .error fault := by
  cases first with
  | error other =>
    cases failed
    exact .inl rfl
  | ok x => exact .inr ⟨x, rfl, failed⟩

/-- Runs of a specification given as a relation between the state before, the
input, the output and the state after. -/
inductive SpecRun (spec : υ → α → β → υ → Prop) : υ → List α → List β → υ → Prop where
  | nil (u : υ) : SpecRun spec u [] [] u
  | cons {u next final : υ} {a : α} {b : β} {rest : List α} {bs : List β}
      (moved : spec u a b next) (ran : SpecRun spec next rest bs final) :
      SpecRun spec u (a :: rest) (b :: bs) final

/-- Forward simulation: if every admitted step from related states returns, is
allowed by the specification and ends in related states, then so does every run
of admitted inputs. -/
theorem run_simulates (step : Step σ α β) (spec : υ → α → β → υ → Prop) (admitted : α → Prop)
    (Rel : σ → υ → Prop)
    (simulated : ∀ s u a, Rel s u → admitted a →
      ∃ next b u', step s a = some (next, b) ∧ spec u a b u' ∧ Rel next u')
    (s : σ) (u : υ) (inputs : List α) (related : Rel s u)
    (inputsAdmitted : ∀ a ∈ inputs, admitted a) :
    ∃ final bs u', run step s inputs = some (final, bs) ∧ SpecRun spec u inputs bs u' ∧
      Rel final u' := by
  induction inputs generalizing s u with
  | nil => exact ⟨s, [], u, rfl, .nil u, related⟩
  | cons a rest ih =>
    obtain ⟨next, b, u', moved, allowed, nextRelated⟩ :=
      simulated s u a related (inputsAdmitted a (by simp))
    obtain ⟨final, bs, u'', ran, specRan, finalRelated⟩ :=
      ih next u' nextRelated (fun x member => inputsAdmitted x (by simp [member]))
    exact ⟨final, b :: bs, u'', (run_cons ..).mpr ⟨next, b, bs, moved, ran, rfl⟩,
      .cons allowed specRan, finalRelated⟩

end YcsbCloud.Library.Machine
