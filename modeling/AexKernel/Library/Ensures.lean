import AexKernel.Library.Outcome

/-! # What a computation ensures

`Ensures excluded x P` says that `x` does not fail in an `excluded` way and that what it returns
satisfies `P`. -/

namespace AexKernel.Library

universe u v

variable {ε : Type u} {α β : Type v}

/-- `x` does not fail in an excluded way, and what it returns satisfies `P`. -/
def Ensures (excluded : ε → Prop) (x : Except ε α) (P : α → Prop) : Prop :=
  match x with
  | .ok a => P a
  | .error e => ¬ excluded e

namespace Ensures

variable {excluded : ε → Prop} {x : Except ε α} {f : α → Except ε β} {P P' : α → Prop}
  {Q : β → Prop} {a : α} {e : ε}

theorem ok (h : P a) : Ensures excluded (.ok a) P := h

theorem error (h : ¬ excluded e) : Ensures excluded (.error e : Except ε α) P := h

theorem bind (h : Ensures excluded x P) (hf : ∀ a, P a → Ensures excluded (f a) Q) :
    Ensures excluded (x >>= f) Q := by
  cases x with
  | error e => exact h
  | ok a => exact hf a h

theorem map {g : α → β} (h : Ensures excluded x fun a => Q (g a)) :
    Ensures excluded (x.map g) Q := by
  cases x with
  | error e => exact h
  | ok a => exact h

section

variable (h : Ensures excluded x P)
include h

theorem mono (hP : ∀ a, P a → P' a) : Ensures excluded x P' := by
  cases x with
  | error e => exact h
  | ok a => exact hP a h

theorem and (h' : Ensures excluded x P') : Ensures excluded x fun a => P a ∧ P' a := by
  cases x with
  | error e => exact h
  | ok a => exact ⟨h, h'⟩

theorem of_ok (hx : x = .ok a) : P a := by
  subst hx
  exact h

end

theorem exists_ok (h : Ensures (fun _ => True) x P) : ∃ a, x = .ok a ∧ P a := by
  cases x with
  | error e => exact absurd trivial h
  | ok a => exact ⟨a, rfl, h⟩

theorem of_returns (h : ∀ a, x = .ok a → P a) : Ensures (fun _ => False) x P := by
  cases x with
  | error e => exact not_false
  | ok a => exact h a rfl

theorem ne_error (h : Ensures excluded x P) (he : excluded e) : x ≠ .error e := by
  rintro rfl
  exact h he

theorem ite {c : Prop} [Decidable c] {y : Except ε α} (hx : c → Ensures excluded x P)
    (hy : ¬ c → Ensures excluded y P) : Ensures excluded (if c then x else y) P := by
  by_cases hc : c
  · rw [if_pos hc]
    exact hx hc
  · rw [if_neg hc]
    exact hy hc

theorem foldlM {γ : Type*} {g : β → γ → Except ε β} {l : List γ} (I : List γ → β → Prop)
    (hs : ∀ before c after b, l = before ++ c :: after → I before b →
      Ensures excluded (g b c) (I (before ++ [c]))) {b : β} (h₀ : I [] b) :
    Ensures excluded (l.foldlM g b) (I l) := by
  -- the induction is on what is still to come
  have hr : ∀ after before b, l = before ++ after → I before b →
      Ensures excluded (after.foldlM g b) (I l) := by
    intro after
    induction after with
    | nil =>
      intro before b hl hb
      rw [hl, List.append_nil]
      exact ok hb
    | cons c after ih =>
      intro before b hl hb
      rw [List.foldlM_cons]
      refine bind (hs before c after b hl hb) ?_
      intro b' hb'
      exact ih (before ++ [c]) b' (by simpa using hl) hb'
  exact hr l [] b rfl h₀

end Ensures

end AexKernel.Library
