import Mathlib

/-! # Fixed-width integer conversions

C-style integers are modelled by mathematical integers together with the conversions that a language
inserts at a type boundary. -/

namespace AexKernel.Library

/-- Reduce to the signed 32-bit range (two's complement). -/
def toInt32 (x : ℤ) : ℤ := (x + 2147483648) % 4294967296 - 2147483648

/-- Reduce to the unsigned 32-bit range. -/
def toUInt32 (x : ℤ) : ℕ := (x % 4294967296).toNat

/-- Reduce to the unsigned 64-bit range. -/
def toUInt64 (x : ℤ) : ℕ := (x % 18446744073709551616).toNat

theorem toInt32_of_range {x : ℤ} (lo : -2147483648 ≤ x) (hi : x < 2147483648) : toInt32 x = x := by
  unfold toInt32; omega

theorem toUInt32_of_range {x : ℤ} (lo : 0 ≤ x) (hi : x < 4294967296) : (toUInt32 x : ℤ) = x := by
  unfold toUInt32; omega

variable {n w a m b : ℕ}

theorem toUInt32_natCast (hi : n < 4294967296) : toUInt32 (n : ℤ) = n := by
  unfold toUInt32; omega

theorem toUInt32_le (n : ℕ) : toUInt32 (n : ℤ) ≤ n := by
  unfold toUInt32; omega

variable (x : ℤ)

theorem toUInt32_lt : toUInt32 x < 4294967296 := by
  unfold toUInt32; omega

theorem toUInt32_emod : (toUInt32 x : ℤ) % 4294967296 = x % 4294967296 := by
  unfold toUInt32; omega

theorem toUInt64_natCast (hi : n < 18446744073709551616) : toUInt64 (n : ℤ) = n := by
  unfold toUInt64; omega

theorem toUInt64_emod32 : (toUInt64 x : ℤ) % 4294967296 = x % 4294967296 := by
  unfold toUInt64; omega

theorem extractLsb'_extractLsb' (v : BitVec w) (h : b + n ≤ m) :
    (v.extractLsb' a m).extractLsb' b n = v.extractLsb' (a + b) n := by
  apply BitVec.eq_of_getLsbD_eq
  intro i hi
  simp [hi, show b + i < m by omega, Nat.add_assoc]

end AexKernel.Library
