import Mathlib.Algebra.Group.Basic
import Mathlib.Data.BitVec
import Mathlib.Logic.Function.Basic

/-! # Storing values one after the other

A list of values is stored at consecutive addresses of a memory, which may come round to its first
address. -/

namespace AexKernel.Library

open Nat List

variable {w : ℕ} {β : Type}

/-- The `n` addresses from `a` on. -/
def span (a : BitVec w) : ℕ → List (BitVec w)
  | 0 => []
  | n + 1 => a :: span (a + 1) n

/-- The memory after the values have been stored from `a` on. -/
def storeFrom (m : BitVec w → β) (a : BitVec w) : List β → BitVec w → β
  | [] => m
  | b :: rest => storeFrom (Function.update m a b) (a + 1) rest

theorem add_one_add_ofNat (a : BitVec w) (k : ℕ) :
    a + 1 + BitVec.ofNat w k = a + BitVec.ofNat w (k + 1) := by
  rw [BitVec.add_assoc, Nat.add_comm k 1, BitVec.ofNat_add]
  rfl

variable {a x : BitVec w}

theorem mem_span {n : ℕ} : x ∈ span a n ↔ ∃ k < n, x = a + BitVec.ofNat w k := by
  induction n generalizing a with
  | zero => simp [span]
  | succ n ih =>
    rw [span, mem_cons, ih]
    constructor
    · rintro (rfl | ⟨k, hk, rfl⟩)
      · exact ⟨0, succ_pos n, (BitVec.add_zero x).symm⟩
      · exact ⟨k + 1, succ_lt_succ hk, add_one_add_ofNat a k⟩
    rintro ⟨k, hk, rfl⟩
    cases k with
    | zero => exact .inl (BitVec.add_zero a)
    | succ k => exact .inr ⟨k, lt_of_succ_lt_succ hk, (add_one_add_ofNat a k).symm⟩

variable {m : BitVec w → β} {values : List β}

theorem storeFrom_of_notMem (h : x ∉ span a values.length) : storeFrom m a values x = m x := by
  induction values generalizing m a with
  | nil => rfl
  | cons b rest ih =>
    obtain ⟨hx, h⟩ := not_or.mp (mem_cons.not.mp h)
    exact (ih h).trans (Function.update_of_ne hx b m)

theorem storeFrom_add {k : ℕ} (hl : values.length ≤ 2 ^ w) (hk : k < values.length) :
    values[k]? = some (storeFrom m a values (a + BitVec.ofNat w k)) := by
  induction values generalizing m a k with
  | nil => exact absurd hk (Nat.not_lt_zero k)
  | cons b rest ih =>
    rw [length_cons] at hl hk
    cases k with
    | zero =>
      have ho : a ∉ span (a + 1) rest.length := by
        intro hm
        obtain ⟨j, hj, he⟩ := mem_span.mp hm
        rw [add_one_add_ofNat, left_eq_add] at he
        have hn := congrArg BitVec.toNat he
        rw [BitVec.toNat_ofNat, mod_eq_of_lt (by omega)] at hn
        exact succ_ne_zero j hn
      rw [storeFrom, BitVec.add_zero, storeFrom_of_notMem ho, Function.update_self]
      rfl
    | succ k =>
      rw [storeFrom, ← add_one_add_ofNat, getElem?_cons_succ]
      exact ih (le_of_succ_le hl) (lt_of_succ_lt_succ hk)

theorem storeFrom_of_mem {P : β → Prop} (hl : values.length ≤ 2 ^ w) (hP : ∀ b ∈ values, P b)
    (hx : x ∈ span a values.length) : P (storeFrom m a values x) := by
  obtain ⟨k, hk, rfl⟩ := mem_span.mp hx
  exact hP _ (mem_of_getElem? (storeFrom_add hl hk))

end AexKernel.Library
