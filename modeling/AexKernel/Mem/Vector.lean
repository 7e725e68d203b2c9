import AexKernel.Basic
import AexKernel.Library.CheckedList
import AexKernel.Library.Refinement

/-! # Vectors (`aex/mem/vector.hpp`)

The first `m_count` of the `m_mem_count` elements at `m_array` are the contents of a vector. -/

namespace AexKernel.Mem

open Library List

/-- `int_ceil<int>(val, alignment)`. -/
def intCeil32 (val alignment : ℤ) : ℤ :=
  toInt32 (Int.tdiv (toInt32 (val + alignment - 1)) alignment * alignment)

/-- The parameters of `Vector<T, chunk_count, minimum_allocation>`. -/
structure VectorType (α : Type) where
  chunkCount : ℤ
  minimumAllocation : ℤ
  size : ℕ
  zero : α
  chunk_pos : 1 ≤ chunkCount
  chunk_lt : chunkCount < 2147483648
  size_pos : 0 < size

/-- `Vector`. -/
structure Vector (α : Type) where
  /-- `m_mem_count`. -/
  memCount : ℤ := 0
  /-- `m_count`. -/
  count : ℤ := 0
  /-- The elements allocated at `m_array`; none for `nullptr`. -/
  array : List α := []
  deriving DecidableEq, Repr

/-- A call on a vector. -/
inductive VectorCall (α : Type)
  | push (val : α) (junk : ℕ → α)
  | erase (index : ℤ) (beyond : α) (junk : ℕ → α)
  | clear (junk : ℕ → α)

namespace Vector

variable {α : Type}

/-- The largest size that `Heap::malloc` allocates. -/
def mallocLimit : ℤ := 67108864

/-- `Heap::realloc(array, count * sizeof(T))`, which returns `nullptr` for a size that is refused. -/
def realloc (T : VectorType α) (array : List α) (count : ℤ) (junk : ℕ → α) : List α :=
  if mallocLimit < count * T.size then []
  else array.take count.toNat ++
    (List.range' array.length (count.toNat - array.length)).map junk

/-- `push(val)`. -/
def push (T : VectorType α) (v : Vector α) (val : α) (junk : ℕ → α) :
    Except Fault (ℤ × Vector α) := do
  let count := v.count + 1
  let newMemCount := intCeil32 count T.chunkCount
  let (memCount, array) :=
    if newMemCount ≠ v.memCount then (newMemCount, realloc T v.array newMemCount junk)
    else (v.memCount, v.array)
  let array ← storeAt .outOfBounds array (count - 1) val
  return (count - 1, { memCount := memCount, count := count, array := array })

/-- The elements that `memcpy` copies to the place before them, from the first to the last. -/
def moveDown (beyond : α) : ℕ → List α → ℕ → Except Fault (List α)
  | 0, array, _ => .ok array
  | n + 1, array, i => do
    let array ← storeAt .outOfBounds array i (array[i + 1]?.getD beyond)
    moveDown beyond n array (i + 1)

/-- `deallocCheck()`. -/
def deallocCheck (T : VectorType α) (v : Vector α) (junk : ℕ → α) : Vector α :=
  let newMemCount := intCeil32 v.count T.chunkCount
  if newMemCount ≠ v.memCount ∧ T.minimumAllocation < newMemCount then
    { v with memCount := newMemCount, array := realloc T v.array newMemCount junk }
  else v

/-- `erase(index)`. -/
def erase (T : VectorType α) (v : Vector α) (index : ℤ) (beyond : α) (junk : ℕ → α) :
    Except Fault (Vector α) :=
  if index < 0 ∨ v.count ≤ index then .ok v
  else do
    let copyAmount := v.memCount - index
    let array ← moveDown beyond copyAmount.toNat v.array index.toNat
    return deallocCheck T { v with count := v.count - 1, array := array } junk

/-- `memset(m_array, '\0', m_mem_count * sizeof(T))`. -/
def zeroFill (T : VectorType α) (v : Vector α) : Except Fault (Vector α) :=
  if v.memCount ≤ v.array.length then
    .ok { v with array := List.replicate v.memCount.toNat T.zero ++ v.array.drop v.memCount.toNat }
  else .error .outOfBounds

/-- `clear()`. -/
def clear (T : VectorType α) (v : Vector α) (junk : ℕ → α) : Except Fault (Vector α) :=
  let v := deallocCheck T { v with count := 0 } junk
  if v.array = [] then .ok v else zeroFill T v

def step (T : VectorType α) (v : Vector α) : VectorCall α → Except Fault (Vector α)
  | .push val junk => do
    let (_, v) ← push T v val junk
    return v
  | .erase index beyond junk => erase T v index beyond junk
  | .clear junk => clear T v junk

/-- The sizes that calls ask for are not refused. -/
def Fits (T : VectorType α) (v : Vector α) : VectorCall α → Prop
  | .push .. => intCeil32 (v.count + 1) T.chunkCount * T.size ≤ mallocLimit
  | _ => True

instance (T : VectorType α) (v : Vector α) : (call : VectorCall α) → Decidable (Fits T v call)
  | .push .. => inferInstanceAs (Decidable (_ ≤ _))
  | .erase .. | .clear _ => inferInstanceAs (Decidable True)

def listCall (l : List α) : VectorCall α → List α
  | .push val _ => l ++ [val]
  | .erase index _ _ => if index < 0 then l else l.eraseIdx index.toNat
  | .clear _ => []

/-- `m_array[0..count)`. -/
def contents (v : Vector α) : List α := v.array.take v.count.toNat

/-! ## Rounding up to chunks -/

section Chunks

variable {chunk val : ℤ}

section

variable (hch : 1 ≤ chunk)
include hch

section

variable (hval : 0 ≤ val)
include hval

section

variable (hmax : val + chunk - 1 < 2147483648)
include hmax

theorem intCeil32_eq : intCeil32 val chunk = (val + chunk - 1) / chunk * chunk := by
  have hd : (val + chunk - 1) / chunk * chunk ≤ val + chunk - 1 := Int.ediv_mul_le _ (by omega)
  have hn : 0 ≤ (val + chunk - 1) / chunk * chunk :=
    mul_nonneg (Int.ediv_nonneg (by omega) (by omega)) (by omega)
  rw [intCeil32, toInt32_of_range (by omega) hmax, Int.tdiv_eq_ediv_of_nonneg (by omega),
    toInt32_of_range (by omega) (by omega)]

theorem le_intCeil32 : val ≤ intCeil32 val chunk := by
  rw [intCeil32_eq hch hval hmax]
  have hm := Int.emod_lt_of_pos (val + chunk - 1) (show 0 < chunk by omega)
  have hs := Int.ediv_mul_add_emod (val + chunk - 1) chunk
  omega

theorem dvd_intCeil32 : chunk ∣ intCeil32 val chunk := by
  rw [intCeil32_eq hch hval hmax]
  exact Dvd.intro_left _ rfl

theorem intCeil32_le {m : ℤ} (hm : chunk ∣ m) (hl : val ≤ m) : intCeil32 val chunk ≤ m := by
  rw [intCeil32_eq hch hval hmax]
  obtain ⟨k, rfl⟩ := hm
  have hk : (val + chunk - 1) / chunk < k + 1 := by
    refine Int.ediv_lt_of_lt_mul (by omega) ?_
    rw [add_mul, mul_comm k]
    omega
  rw [mul_comm chunk k]
  exact mul_le_mul_of_nonneg_right (by omega) (by omega)

end

end

end

end Chunks

/-! ## Moving elements -/

variable {T : VectorType α} {v v' : Vector α}

variable {array : List α} {i n : ℕ}

theorem eraseIdx_set_succ (hi : i + 1 < array.length) :
    (array.set i array[i + 1]).eraseIdx (i + 1) = array.eraseIdx i := by
  refine ext_getElem? fun j => ?_
  rw [getElem?_eraseIdx, getElem?_eraseIdx]
  rcases Nat.lt_trichotomy j i with hj | rfl | hj
  · rw [if_pos (by omega), if_pos hj, getElem?_set_ne (by omega)]
  · rw [if_pos (by omega), if_neg (by omega), getElem?_set_self (by omega), getElem?_eq_getElem hi]
  · rw [if_neg (by omega), if_neg (by omega), getElem?_set_ne (by omega)]

theorem moveDown_eq (b : α) (h : i + (n + 1) = array.length) :
    moveDown b (n + 1) array i = .ok (array.eraseIdx i ++ [b]) := by
  induction n generalizing array i with
  | zero =>
    have hi : i < array.length := by omega
    rw [moveDown, storeAt_natCast hi, ok_bind, moveDown, getElem?_eq_none (by omega), Option.getD_none,
      set_eq_take_append_cons_drop, if_pos hi, eraseIdx_eq_take_drop_succ,
      drop_eq_nil_of_le (by omega), append_nil]
  | succ n ih =>
    have hi : i + 1 < array.length := by omega
    rw [moveDown, storeAt_natCast (by omega), ok_bind, getElem?_eq_getElem hi, Option.getD_some,
      ih (by rw [length_set]; omega), eraseIdx_set_succ hi]

theorem take_eraseIdx (array : List α) (h : i ≤ n) :
    (array.eraseIdx i).take n = (array.take (n + 1)).eraseIdx i := by
  refine ext_getElem? fun j => ?_
  rw [getElem?_take, getElem?_eraseIdx, getElem?_eraseIdx, getElem?_take, getElem?_take]
  split_ifs <;> first | rfl | omega

/-! ## Calls -/

/-- The memory of a vector: whole chunks, which suffice for the contents. -/
structure Sound (T : VectorType α) (v : Vector α) : Prop where
  nonneg : 0 ≤ v.count
  le : v.count ≤ v.memCount
  length : (v.array.length : ℤ) = v.memCount
  chunks : T.chunkCount ∣ v.memCount
  fits : v.memCount * T.size ≤ mallocLimit

theorem Sound.memCount_le (h : Sound T v) : v.memCount ≤ 67108864 := by
  have hs : (1 : ℤ) ≤ T.size := by exact_mod_cast T.size_pos
  have := h.fits
  have := h.nonneg
  have := h.le
  rw [mallocLimit] at *
  nlinarith

theorem Sound.no_overflow (h : Sound T v) {val : ℤ} (hval : val ≤ v.count + 1) :
    val + T.chunkCount - 1 < 2147483648 := by
  have hch := T.chunk_lt
  have hc := h.nonneg
  have hl := h.le
  have hmax := h.memCount_le
  rcases (hc.trans hl).eq_or_lt with hz | hp
  · omega
  have := Int.le_of_dvd hp h.chunks
  omega

variable {count : ℤ}

theorem length_realloc (h : count * T.size ≤ mallocLimit) (junk : ℕ → α) :
    (realloc T array count junk).length = count.toNat := by
  rw [realloc, if_neg (not_lt.mpr h), length_append, length_take, length_map, length_range']
  omega

theorem take_realloc (h : count * T.size ≤ mallocLimit) (junk : ℕ → α) (hn : n ≤ array.length)
    (hc : n ≤ count.toNat) : (realloc T array count junk).take n = array.take n := by
  rw [realloc, if_neg (not_lt.mpr h), take_append_of_le_length (by rw [length_take]; omega),
    take_take, min_eq_left hc]

theorem take_set_succ (h : count.toNat < array.length) (val : α) (hc : 0 ≤ count) :
    (array.set count.toNat val).take (count + 1).toNat = array.take count.toNat ++ [val] := by
  have hs : (count + 1).toNat = count.toNat + 1 := by omega
  rw [hs, set_eq_take_append_cons_drop, if_pos h, append_cons]
  refine take_left' ?_
  rw [length_append, length_take, min_eq_left h.le, length_singleton]

section

variable (h : Sound T v)
include h

variable (junk : ℕ → α)

theorem Sound.deallocCheck :
    Sound T (deallocCheck T v junk) ∧ (deallocCheck T v junk).count = v.count ∧
      (deallocCheck T v junk).contents = v.contents := by
  have hmax := h.no_overflow (show v.count ≤ v.count + 1 by omega)
  have hl := le_intCeil32 T.chunk_pos h.nonneg hmax
  have hm := intCeil32_le T.chunk_pos h.nonneg hmax h.chunks h.le
  have hf : intCeil32 v.count T.chunkCount * T.size ≤ mallocLimit :=
    (mul_le_mul_of_nonneg_right hm (Int.natCast_nonneg _)).trans h.fits
  have hc := h.nonneg
  rw [Vector.deallocCheck]
  split_ifs with hs
  · refine ⟨⟨h.nonneg, hl, ?_, dvd_intCeil32 T.chunk_pos h.nonneg hmax, hf⟩, rfl, ?_⟩
    · dsimp only
      rw [length_realloc hf]
      omega
    have he := h.length
    have ht : v.count.toNat ≤ v.array.length := by omega
    have hg : v.count.toNat ≤ (intCeil32 v.count T.chunkCount).toNat := by omega
    exact take_realloc hf junk ht hg
  · exact ⟨h, rfl, rfl⟩

theorem Sound.push {val : α} {junk : ℕ → α} (hf : Fits T v (.push val junk)) :
    ∃ v', push T v val junk = .ok (v.count, v') ∧ Sound T v' ∧ v'.contents = v.contents ++ [val] := by
  have hc := h.nonneg
  have hl := h.length
  have hle := h.le
  have hmax := h.no_overflow (le_refl (v.count + 1))
  have hce := le_intCeil32 T.chunk_pos (by omega) hmax
  have hd := dvd_intCeil32 T.chunk_pos (by omega) hmax
  obtain ⟨array, ha⟩ : ∃ array, array =
    if intCeil32 (v.count + 1) T.chunkCount ≠ v.memCount then
      realloc T v.array (intCeil32 (v.count + 1) T.chunkCount) junk else v.array := ⟨_, rfl⟩
  have he : (array.length : ℤ) = intCeil32 (v.count + 1) T.chunkCount := by
    rw [ha]
    split_ifs with hn
    · rw [length_realloc hf]
      omega
    · rw [hl, not_not.mp hn]
  have hs : array.take v.count.toNat = v.contents := by
    rw [ha]
    split_ifs with hn
    · exact take_realloc hf junk (by omega) (by omega)
    · rfl
  have hi : v.count.toNat < array.length := by omega
  have hw : storeAt Fault.outOfBounds array v.count val = .ok (array.set v.count.toNat val) :=
    storeAt_eq hc (by omega)
  refine ⟨⟨intCeil32 (v.count + 1) T.chunkCount, v.count + 1, array.set v.count.toNat val⟩, ?_,
    ⟨Int.add_nonneg hc Int.one_nonneg, hce, ?_, hd, hf⟩, ?_⟩
  · by_cases hn : intCeil32 (v.count + 1) T.chunkCount = v.memCount
    · rw [if_neg (not_not.mpr hn)] at ha
      subst ha
      simp only [Vector.push, hn, ne_eq, not_true_eq_false, if_false, add_sub_cancel_right, hw,
        ok_bind, pure_eq_ok]
    rw [if_pos hn] at ha
    subst ha
    simp only [Vector.push, hn, ne_eq, not_false_eq_true, if_true, add_sub_cancel_right, hw,
      ok_bind, pure_eq_ok]
  · rw [length_set, he]
  · rw [← hs]
    exact take_set_succ hi val hc

theorem Sound.erase (i : ℤ) (b : α) (junk : ℕ → α) :
    ∃ v', erase T v i b junk = .ok v' ∧ Sound T v' ∧
      v'.contents = listCall v.contents (.erase i b junk) := by
  have hl := h.length
  have he := h.le
  rw [Vector.erase]
  split_ifs with ho
  · refine ⟨v, rfl, h, ?_⟩
    rw [listCall]
    split_ifs with hne
    · rfl
    · exact (eraseIdx_of_length_le (by rw [contents, length_take]; omega)).symm
  obtain ⟨n, hn⟩ : ∃ n, (v.memCount - i).toNat = n + 1 :=
    Nat.exists_eq_add_one.mpr (by omega)
  have hs : Sound T { v with
      count := v.count - 1
      array := v.array.eraseIdx i.toNat ++ [b] } := by
    refine ⟨Int.sub_nonneg.mpr (by omega), (Int.sub_le_self _ Int.one_nonneg).trans he, ?_,
      h.chunks, h.fits⟩
    rw [length_append, length_singleton, length_eraseIdx_of_lt (by omega)]
    dsimp only
    omega
  obtain ⟨hs', -, hco⟩ := hs.deallocCheck junk
  refine ⟨_, ?_, hs', hco.trans ?_⟩
  · dsimp only
    rw [hn, moveDown_eq b (by omega), ok_bind, pure_eq_ok]
  obtain ⟨k, hk⟩ : ∃ k : ℕ, v.count = k + 1 := ⟨(v.count - 1).toNat, by omega⟩
  have hc : (v.count - 1).toNat = k := by omega
  rw [listCall, if_neg (by omega), contents, contents, hc, hk,
    take_append_of_le_length (by rw [length_eraseIdx_of_lt (by omega)]; omega)]
  exact take_eraseIdx v.array (by omega)

theorem Sound.clear : ∃ v', clear T v junk = .ok v' ∧ Sound T v' ∧ v'.contents = [] := by
  have hs : Sound T { v with count := 0 } :=
    ⟨le_rfl, h.nonneg.trans h.le, h.length, h.chunks, h.fits⟩
  obtain ⟨hs', hc, -⟩ := hs.deallocCheck junk
  have he {w : Vector α} (hw : w.count = 0) : w.contents = [] := by
    rw [contents, hw]
    rfl
  rw [Vector.clear]
  split_ifs with hn
  · exact ⟨_, rfl, hs', he hc⟩
  have hl := hs'.length
  rw [zeroFill, if_pos hl.ge]
  refine ⟨_, rfl, ⟨hs'.nonneg, hs'.le, ?_, hs'.chunks, hs'.fits⟩, he hc⟩
  rw [length_append, length_replicate, length_drop]
  dsimp only
  omega

theorem Sound.step {call : VectorCall α} (hf : Fits T v call) :
    ∃ v', step T v call = .ok v' ∧ Sound T v' ∧ v'.contents = listCall v.contents call := by
  cases call with
  | push val junk =>
    obtain ⟨v', hv', hs, hc⟩ := h.push hf
    exact ⟨v', by simp only [Vector.step, hv', ok_bind, pure_eq_ok], hs, hc⟩
  | erase index beyond junk => exact h.erase index beyond junk
  | clear junk => exact h.clear junk

end

theorem sound_empty (T : VectorType α) : Sound T {} :=
  ⟨le_rfl, le_rfl, rfl, dvd_zero _, (zero_mul (T.size : ℤ)).trans_le (by decide)⟩

/-- **A vector is a list.** In every run in which no size is refused, the contents are those of the
list, the count is within the capacity, the elements allocated are as many as the capacity says, and
every further call returns: it stores to no element outside of them. -/
theorem refines_list {l : List α}
    (run : Reach (alongside (step T) listCall) (fun p call => Fits T p.1 call) ({}, []) (v, l)) :
    v.contents = l ∧ v.count = l.length ∧ v.count ≤ v.memCount ∧ v.array.length = v.memCount ∧
      ∀ call, Fits T v call → ∃ v', step T v call = .ok v' := by
  have hinv : Sound T v ∧ v.contents = l := by
    refine run.alongside (R := fun v l => Sound T v ∧ v.contents = l) ⟨sound_empty T, rfl⟩ ?_
    rintro v l call v' ⟨hso, rfl⟩ hfit hca
    obtain ⟨w, hw, hso', hco⟩ := hso.step hfit
    obtain rfl := Except.ok.inj (hw.symm.trans hca)
    exact ⟨hso', hco⟩
  obtain ⟨hso, hco⟩ := hinv
  refine ⟨hco, ?_, hso.le, hso.length, fun call hfit => ?_⟩
  · have := hso.nonneg
    have := hso.le
    have := hso.length
    rw [← hco, contents, length_take]
    omega
  · obtain ⟨v', hv', -⟩ := hso.step hfit
    exact ⟨v', hv'⟩

/-- A vector of words with chunks of two elements, which it gives back. -/
def words : VectorType ℕ where
  chunkCount := 2
  minimumAllocation := -1
  size := 8
  zero := 0
  chunk_pos := by decide
  chunk_lt := by decide
  size_pos := by decide

theorem refines_list_words :
    ∃ v l, Reach (alongside (step words) listCall) (fun p call => Fits words p.1 call) ({}, [])
      (v, l) ∧ v.array.length = 4 ∧ l = [11, 12, 13] ∧ v.contents = l := by
  obtain ⟨⟨v, l⟩, hp, hlen, hl⟩ :
      ∃ p ∈ execute (alongside (step words) listCall) (fun p call => Fits words p.1 call)
      ({}, []) [.push 10 fun _ => 0, .push 11 fun _ => 0, .push 12 fun _ => 7, .erase 0 5 fun _ => 0,
        .push 13 fun _ => 9], p.1.array.length = 4 ∧ p.2 = [11, 12, 13] := by
    decide
  have run := Reach.refl.execute hp
  exact ⟨v, l, run, hlen, hl, (refines_list run).1⟩

end Vector

end AexKernel.Mem
