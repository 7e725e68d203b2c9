import AexKernel.Basic

/-! # Vectors with holes (`aex/mem/lazyvector.hpp`)

`m_array` has `m_count` places, some of which hold a value. -/

namespace AexKernel.Mem

open Library List Option Int

/-- `LazyVector`. -/
structure LazyVector (α : Type) where
  /-- The places of `m_array`, `m_count` of them. -/
  array : List (Option α) := []
  /-- `m_rcount`. -/
  rcount : ℤ := 0
  deriving DecidableEq, Repr

namespace LazyVector

variable {α : Type}

/-- `resize()`. The heap hands out zeroed memory: new places have no value. -/
def resize (array : List (Option α)) (count : ℕ) : List (Option α) :=
  array.take count ++ List.replicate (count - array.length) none

/-- The value at an index, as far as `present(index)`. -/
def get? (v : LazyVector α) (index : ℤ) : Option α :=
  if index < 0 then none else v.array[index.toNat]?.join

/-- `present(index)`. -/
def present (v : LazyVector α) (index : ℤ) : Bool := (v.get? index).isSome

/-- `set(index, value)`. There is no check for negative indices, and `index + 1` is an `int`. -/
def set (v : LazyVector α) (index : ℤ) (value : α) : Except Fault (LazyVector α) :=
  if index < 0 ∨ 2 ^ 31 ≤ index + 1 then .error .outOfBounds
  else
    let i := index.toNat
    let array := if v.array.length ≤ i then resize v.array (i + 1) else v.array
    let rcount := if array[i]?.join.isSome then v.rcount else v.rcount + 1
    if rcount ≤ array.length then .ok ⟨array.set i (some value), rcount⟩
    else .error (.assertion "m_rcount <= m_count")

/-- `push(val)`. -/
def push (v : LazyVector α) (val : α) : Except Fault (ℤ × LazyVector α) :=
  match v.array.findIdx? Option.isNone with
  | some i => .ok (i, ⟨v.array.set i (some val), v.rcount + 1⟩)
  | none =>
    let array := (resize v.array (v.array.length + 1)).set v.array.length (some val)
    if v.rcount + 1 ≤ array.length then .ok (v.array.length, ⟨array, v.rcount + 1⟩)
    else .error (.assertion "m_rcount <= m_count")

/-- `erase(index)`. -/
def erase (v : LazyVector α) (index : ℤ) : Except Fault (LazyVector α) :=
  if index < 0 ∨ v.array.length ≤ index then .ok v
  else
    let array := (v.array.set index.toNat none).rdropWhile Option.isNone
    if v.rcount - 1 ≤ array.length then .ok ⟨array, v.rcount - 1⟩
    else .error (.assertion "m_rcount <= m_count")

/-- `m_rcount` is the number of values. -/
def Sound (v : LazyVector α) : Prop := v.rcount = v.array.countP Option.isSome

/-! ## Places -/

variable {array : List (Option α)}

section

variable {count : ℕ} (h : array.length ≤ count)
include h

theorem join_getElem?_resize (j : ℕ) : (resize array count)[j]?.join = array[j]?.join := by
  rw [resize, take_of_length_le h, getElem?_append]
  split_ifs with hj
  · rfl
  rw [getElem?_eq_none (not_lt.mp hj), getElem?_replicate]
  split_ifs <;> rfl

theorem length_resize : (resize array count).length = count := by
  rw [resize, take_of_length_le h, length_append, length_replicate]
  omega

theorem countP_resize : (resize array count).countP isSome = array.countP isSome := by
  rw [resize, take_of_length_le h, countP_append, countP_replicate]
  rfl

end

section

variable {i : ℕ} (hi : i < array.length)
include hi

theorem join_getElem?_set (x : Option α) (j : ℕ) :
    (array.set i x)[j]?.join = if j = i then x else array[j]?.join := by
  rw [getElem?_set]
  by_cases hj : i = j
  · rw [if_pos hj, if_pos hi, if_pos hj.symm, join_some]
  · rw [if_neg hj, if_neg (Ne.symm hj)]

theorem countP_set_some (hn : array[i]?.join = none) (x : α) :
    (array.set i (some x)).countP isSome = array.countP isSome + 1 := by
  rw [getElem?_eq_getElem hi, join_some] at hn
  rw [countP_set hi, hn]
  rfl

theorem countP_set_again (hs : array[i]?.join.isSome) (x : α) :
    (array.set i (some x)).countP Option.isSome = array.countP Option.isSome := by
  rw [getElem?_eq_getElem hi, join_some] at hs
  have hp : 0 < array.countP isSome :=
    countP_pos_iff.mpr ⟨_, getElem_mem hi, hs⟩
  rw [countP_set hi, if_pos hs, if_pos isSome_some]
  exact Nat.sub_add_cancel hp

theorem countP_set_none (hs : array[i]?.join.isSome) :
    (array.set i none).countP Option.isSome + 1 = array.countP Option.isSome := by
  rw [getElem?_eq_getElem hi, join_some] at hs
  have hp : 0 < array.countP isSome :=
    countP_pos_iff.mpr ⟨_, getElem_mem hi, hs⟩
  rw [countP_set hi, if_pos hs, if_neg (not_isSome_iff_eq_none.mpr rfl)]
  exact Nat.sub_add_cancel hp

end

theorem rdropWhile_isNone (array : List (Option α)) :
    (∀ j : ℕ, (array.rdropWhile isNone)[j]?.join = array[j]?.join) ∧
      (array.rdropWhile isNone).countP isSome = array.countP isSome := by
  induction array using reverseRecOn with
  | nil => exact ⟨fun _ => rfl, rfl⟩
  | append_singleton rest last ih =>
    rw [rdropWhile_concat]
    cases last with
    | some x => exact ⟨fun _ => rfl, rfl⟩
    | none =>
      refine ⟨fun j => ?_, ?_⟩
      · rw [if_pos isNone_none, ih.1 j, getElem?_append]
        split_ifs with hj
        · rfl
        rw [getElem?_eq_none (not_lt.mp hj), getElem?_singleton]
        split_ifs <;> rfl
      · rw [if_pos isNone_none, ih.2, countP_append]
        rfl

/-! ## The vector as a map -/

variable {v : LazyVector α} {i : ℤ}

theorem get?_of_neg {j : ℤ} (hj : j < 0) : v.get? j = none :=
  if_pos hj

theorem get?_of_places {v' : LazyVector α} (hi : 0 ≤ i) (x : Option α)
    (hp : ∀ j : ℕ, v'.array[j]?.join = if j = i.toNat then x else v.array[j]?.join) (j : ℤ) :
    v'.get? j = if j = i then x else v.get? j := by
  by_cases hj : j < 0
  · rw [get?_of_neg hj, get?_of_neg hj, if_neg (by omega)]
  rw [get?, get?, if_neg hj, if_neg hj, hp]
  have hf : j.toNat = i.toNat ↔ j = i := by omega
  simp only [hf]

theorem set_spec (h : v.Sound) (hi : 0 ≤ i) (hm : i + 1 < 2 ^ 31) (value : α) :
    ∃ v', v.set i value = .ok v' ∧ v'.Sound ∧
      ∀ j, v'.get? j = if j = i then some value else v.get? j := by
  obtain ⟨array, ha⟩ : ∃ array, array =
    if v.array.length ≤ i.toNat then resize v.array (i.toNat + 1) else v.array := ⟨_, rfl⟩
  have hl : i.toNat < array.length := by
    rw [ha]
    split_ifs with he
    · rw [length_resize (by omega)]
      omega
    · omega
  have hp (j : ℕ) : array[j]?.join = v.array[j]?.join := by
    rw [ha]
    split_ifs with he
    · exact join_getElem?_resize (by omega) j
    · rfl
  have hc : (array.countP isSome : ℤ) = v.rcount := by
    rw [ha, h]
    split_ifs with he
    · rw [countP_resize (by omega)]
    · rfl
  have hr : (if array[i.toNat]?.join.isSome then v.rcount else v.rcount + 1) =
      ((array.set i.toNat (some value)).countP isSome : ℤ) := by
    split_ifs with hs
    · rw [countP_set_again hl hs, hc]
    rw [countP_set_some hl (not_isSome_iff_eq_none.mp hs), Nat.cast_add, hc]
    rfl
  refine ⟨⟨array.set i.toNat (some value),
    (array.set i.toNat (some value)).countP isSome⟩, ?_, rfl, ?_⟩
  · rw [LazyVector.set, if_neg (by omega)]
    dsimp only
    rw [← ha, hr, if_pos]
    have he := countP_le_length (p := isSome) (l := array.set i.toNat (some value))
    rw [length_set] at he
    exact_mod_cast he
  · refine get?_of_places hi (some value) fun j => ?_
    rw [join_getElem?_set hl, hp]

theorem push_spec (h : v.Sound) (val : α) :
    ∃ fd v', v.push val = .ok (fd, v') ∧ v'.Sound ∧ IsLeast {j : ℤ | 0 ≤ j ∧ v.get? j = none} fd ∧
      ∀ j, v'.get? j = if j = fd then some val else v.get? j := by
  cases hf : v.array.findIdx? isNone with
  | some i =>
    obtain ⟨hi, hn, hfi⟩ := findIdx?_eq_some_iff_getElem.mp hf
    have hp : v.array[i]?.join = none := by
      rw [getElem?_eq_getElem hi, join_some]
      exact isNone_iff_eq_none.mp hn
    refine ⟨i, ⟨v.array.set i (some val), v.rcount + 1⟩, ?_, ?_, ⟨?_, ?_⟩, ?_⟩
    · rw [push, hf]
    · change v.rcount + 1 = ((v.array.set i (some val)).countP isSome : ℕ)
      rw [countP_set_some hi hp, h]
      rfl
    · refine ⟨natCast_nonneg i, ?_⟩
      rw [get?, if_neg (by omega), toNat_natCast]
      exact hp
    · rintro j ⟨hj, hg⟩
      by_contra hl
      -- an index before the first place without a value has a value
      have hji : j.toNat < i := by omega
      have hs := hfi j.toNat hji
      rw [get?, if_neg (by omega), getElem?_eq_getElem (hji.trans hi), join_some] at hg
      exact hs (isNone_iff_eq_none.mpr hg)
    · refine get?_of_places (natCast_nonneg i) (some val) fun j => ?_
      rw [join_getElem?_set hi, toNat_natCast]
  | none =>
    have ha := findIdx?_eq_none_iff.mp hf
    have he : (resize v.array (v.array.length + 1)).length = v.array.length + 1 :=
      length_resize (Nat.le_succ _)
    have hp : (resize v.array (v.array.length + 1))[v.array.length]?.join = none := by
      rw [join_getElem?_resize (Nat.le_succ _), getElem?_eq_none le_rfl]
      rfl
    have hr : v.rcount + 1 = ((resize v.array (v.array.length + 1)).set v.array.length
        (some val)).countP isSome := by
      rw [countP_set_some (by omega) hp, countP_resize (Nat.le_succ _), h]
      rfl
    refine ⟨v.array.length, ⟨_, v.rcount + 1⟩, ?_, hr, ⟨?_, ?_⟩, ?_⟩
    · rw [push, hf]
      dsimp only
      rw [if_pos]
      rw [hr]
      exact_mod_cast countP_le_length
    · refine ⟨natCast_nonneg _, ?_⟩
      rw [get?, if_neg (by omega), toNat_natCast, getElem?_eq_none le_rfl]
      rfl
    · rintro j ⟨hj, hg⟩
      by_contra hl
      have hji : j.toNat < v.array.length := by omega
      rw [get?, if_neg (by omega), getElem?_eq_getElem hji, join_some] at hg
      have hs := ha _ (getElem_mem hji)
      rw [hg] at hs
      cases hs
    · refine get?_of_places (natCast_nonneg _) (some val) fun j => ?_
      rw [join_getElem?_set (by omega), toNat_natCast, join_getElem?_resize (Nat.le_succ _)]

/-- **`erase`** takes the value of an index that has one. -/
theorem erase_spec (h : v.Sound) (hi : (v.get? i).isSome) :
    ∃ v', v.erase i = .ok v' ∧ v'.Sound ∧ ∀ j, v'.get? j = if j = i then none else v.get? j := by
  have hn : 0 ≤ i := by
    by_contra he
    rw [get?_of_neg (not_le.mp he)] at hi
    cases hi
  rw [get?, if_neg (not_lt.mpr hn)] at hi
  have hl : i.toNat < v.array.length := by
    by_contra hg
    rw [getElem?_eq_none (not_lt.mp hg)] at hi
    cases hi
  obtain ⟨hp, hc⟩ := rdropWhile_isNone (v.array.set i.toNat none)
  have hr : v.rcount - 1 = ((v.array.set i.toNat none).rdropWhile isNone).countP isSome := by
    rw [hc, h, ← countP_set_none hl hi]
    omega
  have hle : v.rcount - 1 ≤ ((v.array.set i.toNat none).rdropWhile isNone).length := by
    rw [hr]
    exact_mod_cast countP_le_length
  refine ⟨⟨(v.array.set i.toNat none).rdropWhile isNone, v.rcount - 1⟩, ?_, hr, ?_⟩
  · rw [erase, if_neg (by omega)]
    exact if_pos hle
  · refine get?_of_places hn none fun j => ?_
    exact (hp j).trans (join_getElem?_set hl none j)

end LazyVector

end AexKernel.Mem
