import Mathlib

/-! # Reasoning about computations that may fail

How a sequence of `Except` computations succeeds or fails, stated once so that proofs can peel a
`do` block apart step by step. -/

namespace AexKernel.Library

universe u v

variable {ε : Type u} {α β : Type v}

@[simp] theorem ok_bind (a : α) (f : α → Except ε β) : (Except.ok a >>= f) = f a := rfl

@[simp] theorem error_bind (e : ε) (f : α → Except ε β) : (Except.error e >>= f) = .error e := rfl

@[simp] theorem pure_eq_ok (a : α) : (pure a : Except ε α) = .ok a := rfl

variable {f : α → Except ε β} {b b' : β}

theorem bind_eq_ok {x : Except ε α} : (x >>= f) = .ok b ↔ ∃ a, x = .ok a ∧ f a = .ok b := by
  cases x with
  | error e => simp
  | ok a => simp

variable {x : Except ε α} {e : ε}

theorem bind_eq_error : (x >>= f) = .error e ↔ x = .error e ∨ ∃ a, x = .ok a ∧ f a = .error e := by
  cases x with
  | error e' => simp
  | ok a => simp

/-- How a computation has failed. -/
def failure (x : Except ε α) : Option ε :=
  match x with
  | .ok _ => none
  | .error e => some e

theorem failure_eq_some : failure x = some e ↔ x = .error e := by
  cases x with
  | error e' => simp [failure]
  | ok a => simp [failure]

instance decidableEqError [DecidableEq ε] : Decidable (x = .error e) := decidable_of_iff _ failure_eq_some

theorem toOption_eq_some {a : α} : x.toOption = some a ↔ x = .ok a := by
  cases x with
  | error e => simp [Except.toOption]
  | ok b => simp [Except.toOption]

/-! ## Loops -/

section Loops

variable {γ : Type*} {f : β → γ → Except ε β}

variable (P enough : ℕ → β → Prop)

theorem foldlM_range_ok {g : ℕ → γ} {n : ℕ}
    (hs : ∀ i < n, ∀ b b', P i b → f b (g i) = .ok b' → P (i + 1) b') (h₀ : P 0 b)
    (h : ((List.range n).map g).foldlM f b = .ok b') : P n b' := by
  induction n generalizing b' with
  | zero =>
    cases h
    exact h₀
  | succ n ih =>
    rw [List.range_succ, List.map_append, List.foldlM_append] at h
    obtain ⟨b1, hf, hl⟩ := bind_eq_ok.mp h
    obtain ⟨b2, hc, hp⟩ := bind_eq_ok.mp hl
    obtain rfl := Except.ok.inj hp
    exact hs n (Nat.lt_succ_self n) b1 b2
      (ih (fun i hi => hs i (hi.trans (Nat.lt_succ_self n))) hf) hc

variable {l : List γ}

theorem foldlM_error {P : ε → Prop} (hs : ∀ b c e, f b c = .error e → P e)
    (h : l.foldlM f b = .error e) : P e := by
  induction l generalizing b with
  | nil => cases h
  | cons c l ih =>
    rcases bind_eq_error.mp h with hf | ⟨b1, -, hr⟩
    · exact hs b c e hf
    · exact ih hr

theorem foldlM_returns (hs : ∀ n b c, enough (n + 1) b → ∃ b', f b c = .ok b' ∧ enough n b')
    {n : ℕ} (hb : enough (n + l.length) b) : ∃ b', l.foldlM f b = .ok b' ∧ enough n b' := by
  induction l generalizing b with
  | nil => exact ⟨b, rfl, hb⟩
  | cons c l ih =>
    obtain ⟨b1, hc, hb1⟩ := hs _ b c hb
    obtain ⟨b2, hl, hb2⟩ := ih hb1
    exact ⟨b2, by rw [List.foldlM_cons, hc, ok_bind, hl], hb2⟩

end Loops

end AexKernel.Library
