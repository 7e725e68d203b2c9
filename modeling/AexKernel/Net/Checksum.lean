import AexKernel.Net.TcpHeader

/-! # The Internet checksum (`checksum.hpp`)

`sum_bytes` adds the 16-bit words of a buffer and `to_checksum` complements the sum after folding
its carries. -/

namespace AexKernel.Net

open Library List Nat

/-! ## Sums -/

variable (a b bytes : List (BitVec 8))

theorem sumBytes_append (h : a.length % 2 = 0) : sumBytes (a ++ b) = sumBytes a + sumBytes b := by
  fun_induction sumBytes a with
  | case1 low high rest ih =>
    have hr : rest.length % 2 = 0 := by
      rw [length_cons, length_cons] at h
      omega
    rw [cons_append, cons_append, sumBytes, ih hr]
    omega
  | case2 last => exact absurd h Nat.one_ne_zero
  | case3 => rw [nil_append, Nat.zero_add]

theorem sumBytes_le : sumBytes bytes ≤ 65535 * ((bytes.length + 1) / 2) := by
  fun_induction sumBytes bytes with
  | case1 low high rest ih =>
    rw [length_cons, length_cons]
    omega
  | case2 last =>
    rw [length_singleton]
    omega
  | case3 => exact Nat.zero_le _

theorem sumBytes_toBE_two (v : ℕ) : sumBytes (toBE 2 v) = v / 256 % 256 + 256 * (v % 256) := by
  simp [toBE, sumBytes]

theorem sumBytes_toBE_two_zero : sumBytes (toBE 2 0) = 0 := by
  decide

/-! ## Folding the carries -/

theorem foldCarries_modEq (fuel total : ℕ) :
    foldCarries fuel total ≡ total [MOD 65535] ∧ (foldCarries fuel total = 0 ↔ total = 0) := by
  fun_induction foldCarries fuel total with
  | case1 total => exact ⟨rfl, Iff.rfl⟩
  | case2 total fuel h => exact ⟨rfl, Iff.rfl⟩
  | case3 total fuel h ih =>
    rw [shiftRight_eq_div_pow] at h ih ⊢
    refine ⟨ih.1.trans ?_, ih.2.trans ?_⟩
    · rw [ModEq]
      omega
    · omega

variable {total w received : ℕ}

theorem foldCarries_lt (h : total < 2 ^ 32) : foldCarries 3 total < 65536 := by
  simp only [foldCarries, shiftRight_eq_div_pow]
  split_ifs <;> omega

/-- **When a sum checks out**: it is a positive multiple of 65535. -/
theorem toChecksum_eq_zero_iff (h : total < 2 ^ 32) :
    toChecksum total = 0 ↔ total ≠ 0 ∧ total ≡ 0 [MOD 65535] := by
  obtain ⟨hm, hz⟩ := foldCarries_modEq 3 total
  have hl := foldCarries_lt h
  have hf : toChecksum total = 0 ↔ foldCarries 3 total = 65535 := by
    rw [toChecksum]
    omega
  rw [hf]
  constructor
  · intro he
    have hp : total ≠ 0 := fun hn => by
      rw [hz.mpr hn] at he
      exact absurd he (by decide)
    rw [he] at hm
    exact ⟨hp, hm.symm⟩
  rintro ⟨hne, ht⟩
  have hd : foldCarries 3 total % 65535 = 0 := hm.trans ht
  omega

theorem sumBytes_swapped (h : w < 65536) : sumBytes (toBE 2 (w % 256 * 256 + w / 256)) = w := by
  have hl : (w % 256 * 256 + w / 256) % 256 = w / 256 := by omega
  have hh : (w % 256 * 256 + w / 256) / 256 = w % 256 := by omega
  rw [sumBytes_toBE_two, hl, hh, mod_mod]
  omega

theorem sumBytes_field (h : total < 2 ^ 32) :
    sumBytes (toBE 2 (toChecksum total)) + foldCarries 3 total = 65535 := by
  have hl := foldCarries_lt h
  rw [toChecksum, sumBytes_swapped (by omega)]
  omega

theorem toChecksum_field_iff (h : total < 2 ^ 32) (hr : received + 65535 < 2 ^ 32)
    (hn : 0 < received) :
    toChecksum (received + sumBytes (toBE 2 (toChecksum total))) = 0 ↔
      received ≡ total [MOD 65535] := by
  have hf := sumBytes_field h
  obtain ⟨hm, -⟩ := foldCarries_modEq 3 total
  rw [toChecksum_eq_zero_iff (by omega)]
  rw [ModEq] at hm ⊢
  rw [ModEq]
  omega

end AexKernel.Net
