import Mathlib

/-! # Stores to an array that check their index

An array is a list, an index a signed integer as programs compute it. -/

namespace AexKernel.Library

variable {ε α : Type}

/-- A store to an element. -/
def storeAt (fault : ε) (array : List α) (index : ℤ) (value : α) : Except ε (List α) :=
  if 0 ≤ index ∧ index < array.length then .ok (array.set index.toNat value) else .error fault

/-- A load of an element. -/
def loadAt (fault : ε) (array : List α) (index : ℤ) : Except ε α :=
  if index < 0 then .error fault
  else match array[index.toNat]? with
    | none => .error fault
    | some value => .ok value

variable {fault : ε} {array : List α} {index : ℤ} {value : α}

theorem storeAt_eq (h₀ : 0 ≤ index) (h : index < array.length) :
    storeAt fault array index value = .ok (array.set index.toNat value) :=
  if_pos ⟨h₀, h⟩

theorem storeAt_natCast {i : ℕ} (h : i < array.length) :
    storeAt fault array i value = .ok (array.set i value) := by
  rw [storeAt_eq (Int.natCast_nonneg i) (by exact_mod_cast h), Int.toNat_natCast]

theorem loadAt_natCast {i : ℕ} (h : i < array.length) : loadAt fault array i = .ok array[i] := by
  rw [loadAt, if_neg (Int.natCast_nonneg i).not_gt, Int.toNat_natCast, List.getElem?_eq_getElem h]

end AexKernel.Library
