import Mathlib

/-! # Serial numbers

Counters of `w` bits go around after `2 ^ w` steps and are compared by the shorter way. -/

namespace AexKernel.Library

open BitVec

variable {w : ℕ} {a b c : BitVec w}

/-- `a` is not after `b`. -/
def SerialLe (a b : BitVec w) : Prop := 2 * (b - a).toNat < 2 ^ w
deriving Decidable

theorem SerialLe.refl (a : BitVec w) : SerialLe a a := by
  rw [SerialLe, BitVec.sub_self, toNat_zero, Nat.mul_zero]
  exact Nat.two_pow_pos w

theorem toNat_sub_add_sub (h : (b - a).toNat + (c - b).toNat < 2 ^ w) :
    (c - a).toNat = (b - a).toNat + (c - b).toNat := by
  have ha : c - a = (b - a) + (c - b) := by rw [add_comm, sub_add_sub_cancel]
  rw [ha, toNat_add, Nat.mod_eq_of_lt h]

theorem SerialLe.toNat_sub (h : SerialLe a b) (h' : SerialLe b c) :
    (c - a).toNat = (b - a).toNat + (c - b).toNat := by
  rw [SerialLe] at h h'
  exact toNat_sub_add_sub (by omega)

theorem toNat_sub_of_le (h : (b - a).toNat ≤ (c - a).toNat) :
    (c - b).toNat = (c - a).toNat - (b - a).toNat := by
  have hs : c - b = (c - a) - (b - a) := by abel
  rw [hs, BitVec.toNat_sub_of_le (le_def.mpr h)]

theorem toNat_sub_of_le_end (h : (c - b).toNat ≤ (c - a).toNat) :
    (b - a).toNat = (c - a).toNat - (c - b).toNat := by
  have hs : b - a = (c - a) - (c - b) := by abel
  rw [hs, BitVec.toNat_sub_of_le (le_def.mpr h)]

theorem SerialLe.total (h : SerialLe a c) (h' : SerialLe b c) : SerialLe a b ∨ SerialLe b a := by
  rw [SerialLe] at h h'
  rcases Nat.le_total (c - b).toNat (c - a).toNat with hl | hl
  · refine Or.inl ?_
    rw [SerialLe, toNat_sub_of_le_end hl]
    omega
  · refine Or.inr ?_
    rw [SerialLe, toNat_sub_of_le_end hl]
    omega

theorem toNat_add_sub {n : ℕ} (h : (b - a).toNat + n < 2 ^ w) :
    (b + BitVec.ofNat w n - a).toNat = (b - a).toNat + n := by
  have hn : n < 2 ^ w := by omega
  have ha : b + BitVec.ofNat w n - a = (b - a) + BitVec.ofNat w n := by abel
  rw [ha, toNat_add, toNat_ofNat, Nat.mod_eq_of_lt hn, Nat.mod_eq_of_lt h]

end AexKernel.Library
