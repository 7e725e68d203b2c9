import Mathlib

/-! # Runs of a system that takes calls

A system is a partial step function: `step s a` executes the call `a` in the state `s` and fails or
returns the next state. -/

namespace AexKernel.Library

universe u v w

variable {σ : Type u} {α : Type v} {ε : Type w}

/-- The states that runs of `allowed` calls reach from `s₀`. -/
inductive Reach (step : σ → α → Except ε σ) (allowed : σ → α → Prop) (s₀ : σ) : σ → Prop
  | refl : Reach step allowed s₀ s₀
  | step {s s' : σ} (a : α) (run : Reach step allowed s₀ s) (ok : allowed s a)
      (next : step s a = .ok s') : Reach step allowed s₀ s'

variable {step : σ → α → Except ε σ} {allowed : σ → α → Prop}

variable {s₀ s s' : σ}

/-- **The invariant rule.** What holds at the start and is preserved by every allowed step holds in
every state that is reached. -/
theorem Reach.invariant {P : σ → Prop} (start : P s₀)
    (preserved : ∀ s a s', P s → allowed s a → step s a = .ok s' → P s')
    (run : Reach step allowed s₀ s) : P s := by
  induction run with
  | refl => exact start
  | step a _ ok next ih => exact preserved _ a _ ih ok next

theorem Reach.trans (first : Reach step allowed s₀ s) (second : Reach step allowed s s') :
    Reach step allowed s₀ s' := by
  induction second with
  | refl => exact first
  | step a _ ok next ih => exact ih.step a ok next

/-- The state after a list of calls, or nothing when one of them is not allowed or fails. -/
def execute (step : σ → α → Except ε σ) (allowed : σ → α → Prop)
    [∀ s a, Decidable (allowed s a)] : σ → List α → Option σ
  | s, [] => some s
  | s, a :: rest =>
    if allowed s a then
      match step s a with
      | .ok next => execute step allowed next rest
      | .error _ => none
    else none

theorem Reach.execute [∀ s a, Decidable (allowed s a)] {calls : List α}
    (run : Reach step allowed s₀ s) (h : execute step allowed s calls = some s') :
    Reach step allowed s₀ s' := by
  induction calls generalizing s with
  | nil =>
    cases h
    exact run
  | cons a rest ih =>
    rw [Library.execute] at h
    split_ifs at h with ha
    split at h
    · next next hn => exact ih (run.step a ha hn) h
    · cases h

variable [∀ s a, Decidable (allowed s a)] {P P' Q R : σ → Prop}

/-- What a run ends in also has what holds in every state that is reached. -/
theorem exists_execute {calls : List α} (h : ∃ s ∈ execute step allowed s₀ calls, P s)
    (hi : ∀ s, Reach step allowed s₀ s → P s → R s) :
    ∃ s ∈ execute step allowed s₀ calls, R s := by
  obtain ⟨s, hs, hp⟩ := h
  exact ⟨s, hs, hi s (Reach.refl.execute hs) hp⟩

theorem exists_execute_and {calls : List α} (h : ∃ s ∈ execute step allowed s₀ calls, P s)
    (hq : ∀ s, Reach step allowed s₀ s → Q s) :
    ∃ s ∈ execute step allowed s₀ calls, P s ∧ Q s :=
  exists_execute h fun s hs hp => ⟨hp, hq s hs⟩

theorem exists_execute_both {calls : List α} (h : ∃ s ∈ execute step allowed s₀ calls, P s ∧ P' s)
    (hq : ∀ s, Reach step allowed s₀ s → Q s) :
    ∃ s ∈ execute step allowed s₀ calls, P s ∧ P' s ∧ Q s :=
  exists_execute h fun s hs hp => ⟨hp.1, hp.2, hq s hs⟩

theorem exists_reach (calls : List α) (h : ∃ s ∈ execute step allowed s₀ calls, P s)
    (hq : ∀ s, Reach step allowed s₀ s → Q s) : ∃ s, Reach step allowed s₀ s ∧ P s ∧ Q s := by
  obtain ⟨s, hs, hp, hqs⟩ := exists_execute_and h hq
  exact ⟨s, Reach.refl.execute hs, hp, hqs⟩

theorem exists_reach_both (calls : List α) (h : ∃ s ∈ execute step allowed s₀ calls, P s ∧ P' s)
    (hq : ∀ s, Reach step allowed s₀ s → Q s) :
    ∃ s, Reach step allowed s₀ s ∧ P s ∧ P' s ∧ Q s := by
  obtain ⟨s, hs, hp, hp', hqs⟩ := exists_execute_both h hq
  exact ⟨s, Reach.refl.execute hs, hp, hp', hqs⟩

end AexKernel.Library
