import Mathlib

/-! # Big-endian numbers in byte strings

Network headers store numbers with the most significant byte first. -/

namespace AexKernel.Library

open List

/-- The `n` low bytes of `v`, most significant first. -/
def toBE : ℕ → ℕ → List (BitVec 8)
  | 0, _ => []
  | n + 1, v => BitVec.ofNat 8 (v / 256 ^ n) :: toBE n v

/-- The number that the bytes spell, most significant first. -/
def fromBE (bytes : List (BitVec 8)) : ℕ := bytes.foldl (fun acc b => acc * 256 + b.toNat) 0

/-- The `n`-byte number at `offset`. -/
def readBE (bytes : List (BitVec 8)) (offset n : ℕ) : ℕ := fromBE ((bytes.drop offset).take n)

variable (n v : ℕ)

@[simp] theorem length_toBE : (toBE n v).length = n := by
  induction n with
  | zero => rfl
  | succ n ih => rw [toBE, length_cons, ih]

theorem foldl_toBE (n v acc : ℕ) :
    (toBE n v).foldl (fun acc b => acc * 256 + b.toNat) acc = acc * 256 ^ n + v % 256 ^ n := by
  induction n generalizing acc with
  | zero => rw [toBE, foldl_nil, pow_zero, Nat.mul_one, Nat.mod_one, Nat.add_zero]
  | succ n ih =>
    have hd : (BitVec.ofNat 8 (v / 256 ^ n)).toNat = v / 256 ^ n % 256 := BitVec.toNat_ofNat ..
    rw [toBE, foldl_cons, ih, hd, pow_succ, Nat.mod_mul]
    ring

theorem fromBE_toBE : fromBE (toBE n v) = v % 256 ^ n := by
  rw [fromBE, foldl_toBE, Nat.zero_mul, Nat.zero_add]

variable (bytes : List (BitVec 8))

theorem foldl_lt (acc : ℕ) :
    bytes.foldl (fun acc b => acc * 256 + b.toNat) acc < (acc + 1) * 256 ^ bytes.length := by
  induction bytes generalizing acc with
  | nil => simp
  | cons b rest ih =>
    have hb : b.toNat < 256 := b.isLt
    rw [foldl_cons, length_cons, pow_succ']
    refine (ih _).trans_le ?_
    rw [← Nat.mul_assoc]
    exact Nat.mul_le_mul_right _ (by omega)

theorem readBE_lt (offset n : ℕ) : readBE bytes offset n < 256 ^ n := by
  have hl : ((bytes.drop offset).take n).length ≤ n := length_take_le ..
  have ht := foldl_lt ((bytes.drop offset).take n) 0
  rw [Nat.zero_add, Nat.one_mul] at ht
  exact ht.trans_le (Nat.pow_le_pow_right (by decide) hl)

theorem readBE_head (rest : List (BitVec 8)) : readBE (toBE n v ++ rest) 0 n = v % 256 ^ n := by
  rw [readBE, drop_zero, take_append_of_le_length (by simp),
    take_of_length_le (by simp), fromBE_toBE]

theorem readBE_skip {m offset : ℕ} (h : m ≤ offset) (v n : ℕ) (rest : List (BitVec 8)) :
    readBE (toBE m v ++ rest) offset n = readBE rest (offset - m) n := by
  rw [readBE, readBE, drop_append, length_toBE, drop_of_length_le (by simpa using h), nil_append]

end AexKernel.Library
