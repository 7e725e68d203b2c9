import AexKernel.Library.ByteMemory

/-! # Copies from a source of bytes into memory -/

namespace AexKernel.Library.Memory

/-- Store `n` bytes from `a` on: the bytes of `source` from `first` on. -/
def copy (m : Memory) (a n : ℕ) (source : Memory) (first : ℕ) : Memory :=
  m.overlay a n fun x => source (first + (x - a))

variable {m source source' : Memory} {a n k first first' : ℕ}

@[simp] theorem copy_zero : m.copy a 0 source first = m := overlay_zero ..

theorem copy_of_lt {i : ℕ} (h : i < n) : m.copy a n source first (a + i) = source (first + i) := by
  rw [copy, overlay_of_mem (by omega) (by omega), Nat.add_sub_cancel_left]

theorem copy_congr (h : ∀ i < n, source (first + i) = source' (first' + i)) :
    m.copy a n source first = m.copy a n source' first' := by
  funext x
  unfold copy overlay
  split_ifs with hx
  · exact h _ (by omega)
  · rfl

/-- Two copies next to each other are one copy. -/
theorem copy_copy :
    (m.copy a n source first).copy (a + n) k source (first + n) =
      m.copy a (n + k) source first := by
  funext x
  simp only [copy, overlay]
  split_ifs
  any_goals omega
  · congr 1
    omega
  · rfl
  · rfl

/-- What was copied can be copied on. -/
theorem copy_of_copy {m' : Memory} {b : ℕ} (h : k + n ≤ b) :
    m.copy a n (m'.copy 0 b source first) k = m.copy a n source (first + k) := by
  refine copy_congr fun i hi => ?_
  rw [copy, overlay_of_mem (by omega) (by omega), Nat.sub_zero, add_assoc]

end AexKernel.Library.Memory
