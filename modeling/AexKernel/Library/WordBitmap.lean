import Mathlib

/-! # Bitmaps stored as lists of machine words

A bitmap is a list of `w`-bit words; bit `i` lives in word `i / w` at position `i % w`. -/

namespace AexKernel.Library

open Finset BitVec Nat

variable {w : ℕ}

/-! ## One bit of one word -/

/-- `word |= 1 << b` for `v = true`, `word &= ~(1 << b)` for `v = false`. -/
def putBit (word : BitVec w) (b : ℕ) (v : Bool) : BitVec w :=
  if v then word ||| (1#w <<< b) else word &&& ~~~(1#w <<< b)

variable {b j i k a n : ℕ}

theorem getLsbD_one_shiftLeft (hj : j < w) : (1#w <<< b).getLsbD j = decide (j = b) := by
  rw [← twoPow_eq, getLsbD_twoPow]
  simp only [eq_comm (a := b), Bool.and_eq_right_iff_imp, decide_eq_true_eq]
  rintro rfl
  exact hj

theorem getLsbD_putBit (word : BitVec w) (b : ℕ) (v : Bool) (hj : j < w) :
    (putBit word b v).getLsbD j = if j = b then v else word.getLsbD j := by
  unfold putBit
  cases v
  · simp only [Bool.false_eq_true, if_false, getLsbD_and, getLsbD_not, hj,
      decide_true, Bool.true_and, getLsbD_one_shiftLeft hj]
    by_cases h : j = b <;> simp [h]
  · simp only [if_true, getLsbD_or, getLsbD_one_shiftLeft hj]
    by_cases h : j = b <;> simp [h]

theorem and_one_shiftLeft_ne_zero (word : BitVec w) (hb : b < w) :
    word &&& (1#w <<< b) ≠ 0#w ↔ word.getLsbD b = true := by
  constructor
  · intro h
    by_contra hi
    apply h
    apply eq_of_getLsbD_eq
    intro j hj
    rw [getLsbD_and, getLsbD_one_shiftLeft hj, getLsbD_zero]
    by_cases hjb : j = b
    · subst hjb; simpa using hi
    · simp [hjb]
  · intro h hz
    have hg := congrArg (fun v => getLsbD v b) hz
    simp [getLsbD_and, getLsbD_one_shiftLeft hb, h] at hg

theorem decide_and_one_shiftLeft (word : BitVec w) (hb : b < w) :
    decide (word &&& (1#w <<< b) ≠ 0#w) = word.getLsbD b := by
  rw [Bool.eq_iff_iff, decide_eq_true_iff]
  exact and_one_shiftLeft_ne_zero word hb

/-! ## Bits of a list of words -/

/-- Bit `i` of the bitmap: bit `i % w` of word `i / w`. Words past the end read as zero. -/
def bitAt (words : List (BitVec w)) (i : ℕ) : Bool :=
  (words.getD (i / w) 0#w).getLsbD (i % w)

variable {words words' : List (BitVec w)} {word : BitVec w}

theorem bitAt_of_getElem? (h : words[i / w]? = some word) :
    bitAt words i = word.getLsbD (i % w) := by
  rw [bitAt, List.getD_eq_getElem?_getD, h, Option.getD_some]

theorem bitAt_set_putBit (v : Bool) (hb : b < w) (hk : words[k]? = some word) (j : ℕ) :
    bitAt (words.set k (putBit word b v)) j = if j = w * k + b then v else bitAt words j := by
  have hw : 0 < w := by omega
  have hm : j % w < w := mod_lt _ hw
  have hl : k < words.length := (List.getElem?_eq_some_iff.mp hk).1
  have hs : j = w * k + b ↔ j / w = k ∧ j % w = b := by
    constructor
    · rintro rfl
      rw [mul_add_div hw, div_eq_of_lt hb, mul_add_mod, mod_eq_of_lt hb]
      exact ⟨by omega, rfl⟩
    · rintro ⟨rfl, rfl⟩
      exact (div_add_mod j w).symm
  by_cases hj : j / w = k
  · have hn : (words.set k (putBit word b v))[j / w]? = some (putBit word b v) := by
      rw [hj, List.getElem?_set_self hl]
    have hold : words[j / w]? = some word := by rw [hj, hk]
    rw [bitAt_of_getElem? hn, getLsbD_putBit word b v hm, bitAt_of_getElem? hold]
    simp [hs, hj]
  have ha : (words.set k (putBit word b v))[j / w]? = words[j / w]? :=
    List.getElem?_set_ne (Ne.symm hj)
  rw [bitAt, List.getD_eq_getElem?_getD, ha, ← List.getD_eq_getElem?_getD, ← bitAt]
  simp [hs, hj]

/-! ## Counting clear bits -/

/-- How many of the first `n` bits are zero. -/
def clearBits (words : List (BitVec w)) (n : ℕ) : ℕ :=
  Nat.count (fun i => bitAt words i = false) n

theorem count_add_of_run {p q : ℕ → Prop} [DecidablePred p] [DecidablePred q]
    (hp : ∀ j, a ≤ j → j < a + k → p j) (hq : ∀ j, a ≤ j → j < a + k → ¬ q j)
    (hr : ∀ j, ¬ (a ≤ j ∧ j < a + k) → (p j ↔ q j)) (hn : a + k ≤ n) :
    count q n + k = count p n := by
  rw [count_eq_card_filter_range, count_eq_card_filter_range]
  have hs : (range n).filter p = (range n).filter q ∪ Ico a (a + k) := by
    ext j
    simp only [mem_filter, mem_range, mem_union, mem_Ico]
    by_cases hj : a ≤ j ∧ j < a + k
    · have hjn : j < n := by omega
      simp [hj, hjn, hp j hj.1 hj.2]
    · simp [hj, hr j hj]
  have hd : Disjoint ((range n).filter q) (Ico a (a + k)) := by
    rw [disjoint_left]
    intro j hj hk
    have hj' := mem_Ico.mp hk
    exact hq j hj'.1 hj'.2 (mem_filter.mp hj).2
  rw [hs, card_union_of_disjoint hd, card_Ico, Nat.add_sub_cancel_left]

/-- `words'` is `words` with the `k` bits from `a` on written to `v`. -/
def PutRun (words words' : List (BitVec w)) (a k : ℕ) (v : Bool) : Prop :=
  ∀ j, bitAt words' j = if a ≤ j ∧ j < a + k then v else bitAt words j

theorem PutRun.clearBits_of_set (h : PutRun words words' a k true) (hn : a + k ≤ n)
    (hc : ∀ j, a ≤ j → j < a + k → bitAt words j = false) :
    clearBits words' n + k = clearBits words n := by
  apply count_add_of_run hc _ _ hn
  · intro j h1 h2
    rw [h j, if_pos ⟨h1, h2⟩]
    decide
  · intro j hj
    rw [h j, if_neg hj]

theorem PutRun.clearBits_of_clear (h : PutRun words words' a k false) (hn : a + k ≤ n)
    (hs : ∀ j, a ≤ j → j < a + k → bitAt words j = true) :
    clearBits words' n = clearBits words n + k := by
  symm
  apply count_add_of_run _ _ _ hn
  · intro j h1 h2
    rw [h j, if_pos ⟨h1, h2⟩]
  · intro j h1 h2
    rw [hs j h1 h2]
    decide
  · intro j hj
    rw [h j, if_neg hj]

end AexKernel.Library
