import AexKernel.Basic
import AexKernel.Library.WordBitmap

/-! # Frame pieces (`mem/frame_piece.hpp`)

A `frame_piece` manages `size` consecutive page frames from the physical address `start` on, with
one bitmap bit per frame. -/

namespace AexKernel.Mem

open Library

/-- `frame_piece`. -/
structure FramePiece where
  /-- `phys_addr start`. -/
  start : ℕ
  /-- `uint32_t size`, in frames. -/
  size : ℕ
  /-- `uint32_t frames_free`. -/
  framesFree : ℕ
  /-- `uint32_t m_bitmap[]`. -/
  bitmap : List (BitVec 32)
  deriving DecidableEq, Repr

/-! ## Marking and unmarking runs -/

/-- The loop of `frame_piece::alloc` (`target = true`) and `frame_piece::free` (`target = false`).
-/
def bitLoop (target : Bool) (condition : String) :
    ℕ → ℕ → ℕ → List (BitVec 32) → Except Fault (List (BitVec 32))
  | 0, _, _, bitmap => .ok bitmap
  | amount + 1, ii, ib, bitmap =>
    match bitmap[ii]? with
    | none => .error .outOfBounds
    | some word =>
      if decide (word &&& (1#32 <<< ib) ≠ 0#32) = target then .error (.assertion condition)
      else if ib + 1 ≥ 32 then
        bitLoop target condition amount (ii + 1) 0 (bitmap.set ii (putBit word ib target))
      else
        bitLoop target condition amount ii (ib + 1) (bitmap.set ii (putBit word ib target))

namespace FramePiece

/-- `ii`: the word that holds bit `lid`. -/
def wordIndex (lid : ℤ) : ℕ := toUInt32 ((toUInt64 lid / 32 : ℕ) : ℤ)

/-- `ib`: the position of bit `lid` in its word. -/
def bitIndex (lid : ℤ) : ℕ := toUInt64 lid % 32

/-- `frame_piece::alloc(lid, amount)`. -/
def alloc (piece : FramePiece) (lid : ℤ) (amount : ℕ) : Except Fault FramePiece := do
  let bitmap ← bitLoop true "!(m_bitmap[ii] & tmp)" amount (wordIndex lid) (bitIndex lid)
    piece.bitmap
  return { piece with bitmap, framesFree := toUInt32 (piece.framesFree - amount) }

/-- `frame_piece::free(lid, amount)`. -/
def free (piece : FramePiece) (lid : ℤ) (amount : ℕ) : Except Fault FramePiece := do
  let bitmap ← bitLoop false "m_bitmap[ii] & tmp" amount (wordIndex lid) (bitIndex lid)
    piece.bitmap
  return { piece with bitmap, framesFree := toUInt32 (piece.framesFree + amount) }

/-- The loop of `frame_piece::find` over the `todo` bits from `i` on. -/
def findLoop (bitmap : List (BitVec 32)) (amount : ℕ) :
    ℕ → ℕ → ℕ → ℕ → ℕ → ℤ → Except Fault ℤ
  | 0, _, _, _, _, _ => .ok (-1)
  | todo + 1, i, ii, ib, found, start =>
    match bitmap[ii]? with
    | none => .error .outOfBounds
    | some word =>
      let ii' := if ib + 1 ≥ 32 then ii + 1 else ii
      let ib' := if ib + 1 ≥ 32 then 0 else ib + 1
      if word &&& (1#32 <<< ib) ≠ 0#32 then
        findLoop bitmap amount todo (i + 1) ii' ib' 0 (-1)
      else
        let start := if start = -1 then toInt32 i else start
        if found + 1 = amount then .ok start
        else findLoop bitmap amount todo (i + 1) ii' ib' (found + 1) start

/-- `frame_piece::find(amount)`. -/
def find (piece : FramePiece) (amount : ℕ) : Except Fault ℤ :=
  if amount = 0 ∨ amount > piece.framesFree then .ok (-1)
  else findLoop piece.bitmap amount piece.size 0 0 0 0 (-1)

end FramePiece

/-! ## Specifications -/

theorem bitLoop_spec (target : Bool) (condition : String) (amount ii ib : ℕ)
    (bitmap : List (BitVec 32)) (hib : ib < 32)
    (hl : 32 * ii + ib + amount ≤ 32 * bitmap.length)
    (hb : ∀ j, 32 * ii + ib ≤ j → j < 32 * ii + ib + amount → bitAt bitmap j = !target) :
    ∃ bitmap', bitLoop target condition amount ii ib bitmap = .ok bitmap' ∧
      bitmap'.length = bitmap.length ∧
      PutRun bitmap bitmap' (32 * ii + ib) amount target := by
  induction amount generalizing ii ib bitmap with
  | zero =>
    refine ⟨bitmap, rfl, rfl, fun j => ?_⟩
    rw [if_neg (by omega)]
  | succ amount ih =>
    have hii : ii < bitmap.length := by omega
    obtain ⟨word, hw⟩ : ∃ word, bitmap[ii]? = some word :=
      ⟨_, List.getElem?_eq_getElem hii⟩
    have hd : (32 * ii + ib) / 32 = ii := by omega
    have hm : (32 * ii + ib) % 32 = ib := by omega
    have hi : word.getLsbD ib = !target := by
      have := hb (32 * ii + ib) le_rfl (by omega)
      rwa [bitAt_of_getElem? (by rw [hd]; exact hw), hm] at this
    have ht : ¬ decide (word &&& (1#32 <<< ib) ≠ 0#32) = target := by
      rw [decide_and_one_shiftLeft word hib, hi]
      cases target <;> decide
    -- one iteration writes bit `32 * ii + ib`; the rest of the run is still unwritten
    have hp := bitAt_set_putBit target hib hw
    have hn : ∀ ii' ib', 32 * ii' + ib' = 32 * ii + ib + 1 → ib' < 32 →
        ∃ bitmap', bitLoop target condition amount ii' ib'
            (bitmap.set ii (putBit word ib target)) = .ok bitmap' ∧
          bitmap'.length = bitmap.length ∧
          PutRun bitmap bitmap' (32 * ii + ib) (amount + 1) target := by
      intro ii' ib' ho hi'
      obtain ⟨bitmap', hr, hl', he⟩ := ih ii' ib'
        (bitmap.set ii (putBit word ib target)) hi' (by rw [List.length_set]; omega)
        (fun j h1 h2 => by rw [hp j, if_neg (by omega)]; exact hb j (by omega) (by omega))
      refine ⟨bitmap', hr, by rw [hl', List.length_set], fun j => ?_⟩
      rw [he j, hp j, ho]
      by_cases hj : j = 32 * ii + ib
      · rw [if_neg (by omega), if_pos hj, if_pos (by omega)]
      rw [if_neg hj]
      exact if_congr (by omega) rfl rfl
    rw [bitLoop, hw]
    simp only [if_neg ht]
    by_cases hwr : ib + 1 ≥ 32
    · rw [if_pos hwr]
      exact hn (ii + 1) 0 (by omega) (by omega)
    · rw [if_neg hwr]
      exact hn ii (ib + 1) (by omega) (by omega)

namespace FramePiece

variable {lid : ℤ}

theorem wordIndex_bitIndex (h0 : 0 ≤ lid) (h1 : lid < 2147483648) :
    32 * wordIndex lid + bitIndex lid = lid.toNat ∧ bitIndex lid < 32 := by
  unfold wordIndex bitIndex toUInt32 toUInt64
  omega

variable {amount : ℕ}

variable (piece : FramePiece)

theorem alloc_spec (h0 : 0 ≤ lid) (h1 : lid < 2147483648)
    (hl : lid.toNat + amount ≤ 32 * piece.bitmap.length)
    (hc : ∀ j, lid.toNat ≤ j → j < lid.toNat + amount → bitAt piece.bitmap j = false) :
    ∃ bitmap, piece.alloc lid amount =
        .ok { piece with bitmap, framesFree := toUInt32 (piece.framesFree - amount) } ∧
      bitmap.length = piece.bitmap.length ∧ PutRun piece.bitmap bitmap lid.toNat amount true := by
  obtain ⟨hp, hi⟩ := wordIndex_bitIndex h0 h1
  obtain ⟨bitmap, hr, hl', hu⟩ := bitLoop_spec true "!(m_bitmap[ii] & tmp)" amount
    (wordIndex lid) (bitIndex lid) piece.bitmap hi (by omega) (by rw [hp]; exact hc)
  rw [hp] at hu
  exact ⟨bitmap, by rw [alloc, hr]; rfl, hl', hu⟩

theorem free_spec (h0 : 0 ≤ lid) (h1 : lid < 2147483648)
    (hl : lid.toNat + amount ≤ 32 * piece.bitmap.length)
    (hs : ∀ j, lid.toNat ≤ j → j < lid.toNat + amount → bitAt piece.bitmap j = true) :
    ∃ bitmap, piece.free lid amount =
        .ok { piece with bitmap, framesFree := toUInt32 (piece.framesFree + amount) } ∧
      bitmap.length = piece.bitmap.length ∧
      PutRun piece.bitmap bitmap lid.toNat amount false := by
  obtain ⟨hp, hi⟩ := wordIndex_bitIndex h0 h1
  obtain ⟨bitmap, hr, hl', hu⟩ := bitLoop_spec false "m_bitmap[ii] & tmp" amount
    (wordIndex lid) (bitIndex lid) piece.bitmap hi (by omega) (by rw [hp]; exact hs)
  rw [hp] at hu
  exact ⟨bitmap, by rw [free, hr]; rfl, hl', hu⟩

/-- **The search loop** returns `-1` or the first index of a run of `n` clear bits. -/
theorem findLoop_spec (bitmap : List (BitVec 32)) (n todo i ii ib found : ℕ) (start : ℤ)
    (hib : ib < 32) (hi : i = 32 * ii + ib) (hl : i + todo ≤ 32 * bitmap.length)
    (hm : i + todo ≤ 2147483648) (hf : found ≤ i) (hlt : found < n)
    (ht : start = if found = 0 then -1 else ((i - found : ℕ) : ℤ))
    (hc : ∀ j, i - found ≤ j → j < i → bitAt bitmap j = false) :
    ∃ r, findLoop bitmap n todo i ii ib found start = .ok r ∧
      (r = -1 ∨ (0 ≤ r ∧ r.toNat + n ≤ i + todo ∧
        ∀ j, r.toNat ≤ j → j < r.toNat + n → bitAt bitmap j = false)) := by
  induction todo generalizing i ii ib found start with
  | zero => exact ⟨-1, rfl, Or.inl rfl⟩
  | succ todo ih =>
    have hii : ii < bitmap.length := by omega
    obtain ⟨word, hw⟩ : ∃ word, bitmap[ii]? = some word :=
      ⟨_, List.getElem?_eq_getElem hii⟩
    have hb : bitAt bitmap i = word.getLsbD ib := by
      rw [bitAt_of_getElem? (by rw [show i / 32 = ii by omega]; exact hw),
        show i % 32 = ib by omega]
    rw [findLoop, hw]
    simp only
    generalize hi' : (if ib + 1 ≥ 32 then ii + 1 else ii) = ii'
    generalize hb' : (if ib + 1 ≥ 32 then 0 else ib + 1) = ib'
    have hn : i + 1 = 32 * ii' + ib' ∧ ib' < 32 := by
      rw [← hi', ← hb']
      split <;> omega
    by_cases hs : word.getLsbD ib = true
    · -- a taken frame: the run starts over
      rw [if_pos ((and_one_shiftLeft_ne_zero word hib).mpr hs)]
      obtain ⟨r, hr, hp⟩ := ih (i + 1) ii' ib' 0 (-1) hn.2 hn.1 (by omega) (by omega)
        (by omega) (by omega) rfl (fun j h1 h2 => absurd h2 (by omega))
      exact ⟨r, hr, by rwa [Nat.add_right_comm] at hp⟩
    rw [if_neg (fun h => hs ((and_one_shiftLeft_ne_zero word hib).mp h))]
    have hc' : ∀ j, i - found ≤ j → j < i + 1 → bitAt bitmap j = false := by
      intro j h1 h2
      by_cases hj : j = i
      · subst hj
        rw [hb]
        simpa using hs
      · exact hc j h1 (by omega)
    have hs' : (if start = -1 then toInt32 i else start) = ((i - found : ℕ) : ℤ) := by
      rw [ht]
      by_cases h0 : found = 0
      · rw [if_pos h0, if_pos rfl, toInt32_of_range (by omega) (by omega), h0, Nat.sub_zero]
      · rw [if_neg h0, if_neg (by omega)]
    rw [hs']
    by_cases hd : found + 1 = n
    · rw [if_pos hd]
      refine ⟨_, rfl, Or.inr ⟨by omega, by omega, fun j h1 h2 => hc' j ?_ ?_⟩⟩ <;> omega
    rw [if_neg hd]
    obtain ⟨r, hr, hp⟩ := ih (i + 1) ii' ib' (found + 1) ((i - found : ℕ) : ℤ) hn.2
      hn.1 (by omega) (by omega) (by omega) (by omega)
      (by rw [if_neg (by omega), Nat.add_sub_add_right])
      (fun j h1 h2 => hc' j (by omega) h2)
    exact ⟨r, hr, by rwa [Nat.add_right_comm] at hp⟩

theorem find_spec (n : ℕ) (hl : piece.size ≤ 32 * piece.bitmap.length)
    (hm : piece.size ≤ 2147483648) :
    ∃ r, piece.find n = .ok r ∧
      (r = -1 ∨ (0 < n ∧ 0 ≤ r ∧ r.toNat + n ≤ piece.size ∧
        ∀ j, r.toNat ≤ j → j < r.toNat + n → bitAt piece.bitmap j = false)) := by
  rw [find]
  by_cases hn : n = 0 ∨ n > piece.framesFree
  · exact ⟨-1, by rw [if_pos hn], Or.inl rfl⟩
  rw [if_neg hn]
  obtain ⟨r, hr, hs⟩ := findLoop_spec piece.bitmap n piece.size 0 0 0 0 (-1) (by omega)
    rfl (by omega) (by omega) le_rfl (by omega) rfl (fun j _ h => absurd h (by omega))
  refine ⟨r, hr, hs.imp_right fun ⟨h1, h2, h3⟩ => ⟨by omega, h1, by omega, h3⟩⟩

end FramePiece

end AexKernel.Mem
