import AexKernel.Library.Outcome
import AexKernel.Library.Run

/-! # Refinement of a sequence of calls

A component answers calls from its state and may fail (`serve`). -/

namespace AexKernel.Library

universe u v w

variable {σ ρ : Type u} {α : Type v} {τ : Type w} {ε : Type*}

/-- The answers to a sequence of calls, and the state after them. -/
def serve (step : σ → α → Except ε (ρ × σ)) : σ → List α → Except ε (List ρ × σ)
  | s, [] => .ok ([], s)
  | s, a :: rest => do
    let (result, s) ← step s a
    let (results, s) ← serve step s rest
    return (result :: results, s)

/-- The answers of a specification, and its state after them. -/
def answer (spec : τ → α → ρ × τ) : τ → List α → List ρ × τ
  | t, [] => ([], t)
  | t, a :: rest =>
    ((spec t a).1 :: (answer spec (spec t a).2 rest).1, (answer spec (spec t a).2 rest).2)

variable (step : σ → α → Except ε (ρ × σ))

theorem serve_refines (spec : τ → α → ρ × τ) (Inv : σ → Prop) (abs : σ → τ)
    (ht : ∀ s a result s', Inv s → step s a = .ok (result, s') → Inv s' ∧ spec (abs s) a =
      (result, abs s'))
    {s s' : σ} {calls : List α} {results : List ρ} (hs : Inv s)
    (h : serve step s calls = .ok (results, s')) :
    Inv s' ∧ answer spec (abs s) calls = (results, abs s') := by
  induction calls generalizing s results with
  | nil =>
    cases h
    exact ⟨hs, rfl⟩
  | cons a rest ih =>
    obtain ⟨⟨result, s1⟩, hc, hr⟩ := bind_eq_ok.mp h
    obtain ⟨⟨results', s2⟩, he, hp⟩ := bind_eq_ok.mp hr
    cases hp
    obtain ⟨hs1, hsp⟩ := ht s a result s1 hs hc
    obtain ⟨hs2, ha⟩ := ih hs1 he
    refine ⟨hs2, ?_⟩
    rw [answer, hsp, ha]

theorem serve_returns (enough : ℕ → σ → Prop) (cost : ℕ) {calls : List α}
    (ht : ∀ n s, ∀ a ∈ calls, enough (n + cost) s → ∃ result s', step s a = .ok (result, s') ∧
      enough n s')
    {s : σ} {n : ℕ} (hs : enough (n + cost * calls.length) s) :
    ∃ results s', serve step s calls = .ok (results, s') ∧ enough n s' := by
  induction calls generalizing s with
  | nil => exact ⟨[], s, rfl, hs⟩
  | cons a rest ih =>
    rw [List.length_cons, Nat.mul_succ, ← Nat.add_assoc] at hs
    obtain ⟨result, s1, hc, hs1⟩ := ht _ s a List.mem_cons_self hs
    obtain ⟨results, s2, he, hs2⟩ :=
      ih (fun n s b hb => ht n s b (List.mem_cons_of_mem a hb)) hs1
    exact ⟨result :: results, s2, by simp only [serve, hc, he, ok_bind, pure_eq_ok], hs2⟩

/-! ## Side by side -/

/-- A system and a specification that take the same calls. -/
def alongside {σ : Type*} {τ : Type*} (step : σ → α → Except ε σ) (spec : τ → α → τ) (p : σ × τ)
    (a : α) : Except ε (σ × τ) :=
  (step p.1 a).map fun s => (s, spec p.2 a)

theorem Reach.alongside {σ : Type*} {τ : Type*} {step : σ → α → Except ε σ} {spec : τ → α → τ}
    {allowed : σ × τ → α → Prop} {R : σ → τ → Prop} {s₀ s : σ} {t₀ t : τ} (start : R s₀ t₀)
    (preserved : ∀ s t a s', R s t → allowed (s, t) a → step s a = .ok s' → R s' (spec t a))
    (run : Reach (Library.alongside step spec) allowed (s₀, t₀) (s, t)) : R s t := by
  refine run.invariant (P := fun p => R p.1 p.2) start fun p a p' h ha hs => ?_
  cases hc : step p.1 a with
  | error e =>
    rw [Library.alongside, hc] at hs
    cases hs
  | ok s' =>
    rw [Library.alongside, hc] at hs
    cases hs
    exact preserved p.1 p.2 a s' h ha hc

end AexKernel.Library
