import Mathlib

/-! # Byte-addressed memory

Memory is a function from addresses to bytes. -/

namespace AexKernel.Library

/-- Byte-addressed memory. -/
abbrev Memory := ℕ → BitVec 8

namespace Memory

/-- The number that `n` bytes from `a` on spell, least significant byte first. -/
def read (m : Memory) (a : ℕ) : ℕ → ℕ
  | 0 => 0
  | n + 1 => (m a).toNat + 256 * read m (a + 1) n

/-- Replace the range of `n` bytes from `a` on by the contents `c`. -/
def overlay (m : Memory) (a n : ℕ) (c : Memory) : Memory :=
  fun x => if a ≤ x ∧ x < a + n then c x else m x

/-- Store the `n` low bytes of `v` from `a` on. -/
def write (m : Memory) (a n v : ℕ) : Memory :=
  m.overlay a n fun x => BitVec.ofNat 8 (v / 256 ^ (x - a))

/-- `memset`: store the byte `b` in `n` bytes from `a` on. -/
def fill (m : Memory) (a n : ℕ) (b : BitVec 8) : Memory := m.overlay a n fun _ => b

/-- Store bytes one after the other from `a` on. -/
def store (m : Memory) (a : ℕ) (bytes : List (BitVec 8)) : Memory :=
  m.overlay a bytes.length fun x => bytes.getD (x - a) 0

variable {m c m' : Memory} {a n x v k i : ℕ}

theorem overlay_of_mem (hl : a ≤ x) (hh : x < a + n) :
    m.overlay a n c x = c x := if_pos ⟨hl, hh⟩

theorem overlay_of_not_mem (h : x < a ∨ a + n ≤ x) : m.overlay a n c x = m x := if_neg (by omega)

@[simp] theorem overlay_zero (m c : Memory) (a : ℕ) : m.overlay a 0 c = m :=
  funext fun _ => overlay_of_not_mem (by omega)

theorem overlay_overlay (m c c' : Memory) (a n k : ℕ) :
    (m.overlay a n c).overlay (a + n) k c' =
      m.overlay a (n + k) fun x => if x < a + n then c x else c' x := by
  funext x
  simp only [overlay]
  split_ifs <;> first | rfl | omega

variable {b : BitVec 8}

theorem fill_of_mem (hl : a ≤ x) (hh : x < a + n) : m.fill a n b x = b := overlay_of_mem hl hh

theorem fill_of_not_mem (h : x < a ∨ a + n ≤ x) : m.fill a n b x = m x := overlay_of_not_mem h

theorem write_of_mem (hl : a ≤ x) (hh : x < a + n) :
    m.write a n v x = BitVec.ofNat 8 (v / 256 ^ (x - a)) := overlay_of_mem hl hh

theorem write_of_not_mem (h : x < a ∨ a + n ≤ x) : m.write a n v x = m x := overlay_of_not_mem h

variable {bytes : List (BitVec 8)}

theorem store_of_not_mem (h : x < a ∨ a + bytes.length ≤ x) :
    m.store a bytes x = m x := overlay_of_not_mem h

theorem store_add (h : k < bytes.length) : m.store a bytes (a + k) = bytes.getD k 0 := by
  rw [store, overlay_of_mem (by omega) (by omega), Nat.add_sub_cancel_left]

@[simp] theorem store_nil (m : Memory) (a : ℕ) : m.store a [] = m :=
  funext fun _ => store_of_not_mem (by rw [List.length_nil]; omega)

theorem store_append (m : Memory) (a : ℕ) (first second : List (BitVec 8)) :
    (m.store a first).store (a + first.length) second = m.store a (first ++ second) := by
  funext x
  rcases Nat.lt_or_ge x a with hl | hl
  · rw [store_of_not_mem (by omega), store_of_not_mem (by omega), store_of_not_mem (by omega)]
  obtain ⟨k, rfl⟩ := Nat.exists_eq_add_of_le hl
  have he : (first ++ second).length = first.length + second.length := List.length_append
  rcases Nat.lt_or_ge k first.length with hf | hf
  · rw [store_of_not_mem (by omega), store_add hf, store_add (by omega),
      List.getD_append _ _ _ _ hf]
  obtain ⟨j, rfl⟩ := Nat.exists_eq_add_of_le hf
  rcases Nat.lt_or_ge j second.length with hs | hs
  · rw [← Nat.add_assoc, store_add hs, Nat.add_assoc, store_add (by omega),
      List.getD_append_right _ _ _ _ (by omega), Nat.add_sub_cancel_left]
  · rw [store_of_not_mem (by omega), store_of_not_mem (by omega), store_of_not_mem (by omega)]

theorem read_congr (h : ∀ x, a ≤ x → x < a + n → m' x = m x) : m'.read a n = m.read a n := by
  induction n generalizing a with
  | zero => rfl
  | succ n ih =>
    rw [read, read, h a le_rfl (by omega), ih fun x h1 h2 => h x (by omega) (by omega)]

theorem read_lt (m : Memory) (a n : ℕ) : m.read a n < 256 ^ n := by
  induction n generalizing a with
  | zero => exact Nat.one_pos
  | succ n ih =>
    have hr := ih (a + 1)
    rw [read, pow_succ]
    omega

theorem read_eq_zero (h : ∀ x, a ≤ x → x < a + n → m x = 0#8) : m.read a n = 0 := by
  induction n generalizing a with
  | zero => rfl
  | succ n ih =>
    rw [read, h a le_rfl (by omega), ih fun x h1 h2 => h x (by omega) (by omega)]
    rfl

theorem read_of_bytes (h : ∀ i < n, m (a + i) = BitVec.ofNat 8 (v / 256 ^ i)) :
    m.read a n = v % 256 ^ n := by
  induction n generalizing a v with
  | zero => rw [read, pow_zero, Nat.mod_one]
  | succ n ih =>
    have hh : m a = BitVec.ofNat 8 v := by simpa using h 0 (by omega)
    have ht := ih (a := a + 1) (v := v / 256) fun i hi => by
      rw [Nat.add_assoc, Nat.add_comm 1 i, h (i + 1) (by omega), Nat.div_div_eq_div_mul, pow_succ']
    have hs : v % 256 ^ (n + 1) = v % 256 + 256 * (v / 256 % 256 ^ n) := by
      rw [pow_succ', Nat.mod_mul]
    rw [read, ht, hh, BitVec.toNat_ofNat, hs]

theorem read_write (hv : v < 256 ^ n) : (m.write a n v).read a n = v := by
  rw [read_of_bytes (v := v), Nat.mod_eq_of_lt hv]
  intro i hi
  rw [write_of_mem (by omega) (by omega), Nat.add_sub_cancel_left]

theorem eq_of_read (hi : i < n) : BitVec.ofNat 8 (m.read a n / 256 ^ i) = m (a + i) := by
  induction n generalizing a i with
  | zero => omega
  | succ n ih =>
    have hb := (m a).isLt
    cases i with
    | zero =>
      apply BitVec.eq_of_toNat_eq
      rw [pow_zero, Nat.div_one, BitVec.toNat_ofNat, read, Nat.add_mul_mod_self_left,
        Nat.mod_eq_of_lt hb, Nat.add_zero]
    | succ i =>
      have hs : m.read a (n + 1) / 256 ^ (i + 1) = m.read (a + 1) n / 256 ^ i := by
        rw [pow_succ', ← Nat.div_div_eq_div_mul, read]
        congr 1
        omega
      rw [hs, ih (by omega), Nat.add_assoc, Nat.add_comm 1 i]

theorem write_read (m : Memory) (a n : ℕ) : m.write a n (m.read a n) = m := by
  funext x
  by_cases hx : a ≤ x ∧ x < a + n
  · rw [write_of_mem hx.1 hx.2, eq_of_read (by omega), Nat.add_sub_cancel' hx.1]
  · rw [write_of_not_mem (by omega)]

theorem write_write (m : Memory) (a n v w : ℕ) : (m.write a n v).write a n w = m.write a n w := by
  funext x
  by_cases hx : a ≤ x ∧ x < a + n
  · rw [write_of_mem hx.1 hx.2, write_of_mem hx.1 hx.2]
  · rw [write_of_not_mem (by omega), write_of_not_mem (by omega), write_of_not_mem (by omega)]

section Apart

variable {b : ℕ}

section

variable (h : a + n ≤ b ∨ b + k ≤ a)
include h

theorem read_overlay : (m.overlay b k c).read a n = m.read a n :=
  read_congr fun _ _ _ => overlay_of_not_mem (by omega)

theorem read_write_apart : (m.write b k v).read a n = m.read a n := read_overlay h

theorem read_fill_apart {v : BitVec 8} : (m.fill b k v).read a n = m.read a n := read_overlay h

end

end Apart

end Memory

end AexKernel.Library
