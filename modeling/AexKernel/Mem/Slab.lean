import AexKernel.Library.ByteMemory
import AexKernel.Library.Outcome
import AexKernel.Library.WordBitmap

/-! # Slabs of the kernel heap (`mem/heap.cpp`)

A slab is a piece of memory with a descriptor, a bitmap and a data area of 16-byte pieces. -/

namespace AexKernel.Mem

open Library Nat BitVec Or

/-- `ALLOC_SIZE`. -/
def allocSize : ℕ := 16

/-- `SANITY_XOR`. -/
def sanityXor : ℕ := 0x28AC829B1F5231EC

/-- `int_floor<size_t>`. -/
def intFloor (val alignment : ℕ) : ℕ := val / alignment * alignment

/-- `int_ceil<size_t>`. -/
def intCeil (val alignment : ℕ) : ℕ := (val + alignment - 1) / alignment * alignment

/-- `ceilToAllocSize`. -/
def ceilToAllocSize (val : ℕ) : ℕ := intCeil val allocSize

/-- `ceilToPiece`. -/
def ceilToPiece (val : ℕ) : ℕ := intCeil val allocSize / allocSize

namespace Slab

/-! ## Fields -/

/-- `sizeof(Slab)`, which is also the offset of `bitmap`. -/
def sizeofSlab : ℕ := 48

variable (mem : Memory) (slab : ℕ)

/-- `slab->pieces`. -/
def pieces : ℕ := mem.read slab 8

/-- `slab->free_pieces`. -/
def freePieces : ℕ := mem.read (slab + 8) 8

/-- `slab->next`. -/
def next : ℕ := mem.read (slab + 16) 8

/-- `slab->data`, after the lock. -/
def data : ℕ := mem.read (slab + 40) 8

/-- `slab->bitmap[ii]`. -/
def word (ii : ℕ) : BitVec 32 := BitVec.ofNat 32 (mem.read (slab + sizeofSlab + 4 * ii) 4)

/-- `slab->bitmap[ii] = buffer`. -/
def setWord (ii : ℕ) (buffer : BitVec 32) : Memory :=
  mem.write (slab + sizeofSlab + 4 * ii) 4 buffer.toNat

/-- Bit `i` of the bitmap. -/
def bit (i : ℕ) : Bool := (word mem slab (i / 32)).getLsbD (i % 32)

/-! ## Bitmap operations -/

/-- The loop of `mark` (`v = true`) and `unmark` (`v = false`). -/
def putLoop (v : Bool) : ℕ → ℕ → ℕ → BitVec 32 → Memory → Memory
  | 0, ii, _, buffer, mem => setWord mem slab ii buffer
  | amount + 1, ii, ib, buffer, mem =>
    let buffer := putBit buffer ib v
    if ib + 1 ≥ 32 then
      let mem := setWord mem slab ii buffer
      putLoop v amount (ii + 1) 0 (word mem slab (ii + 1)) mem
    else putLoop v amount ii (ib + 1) buffer mem

/-- `mark` and `unmark` as one function of the bit they put. -/
def put (v : Bool) (start amount : ℕ) : Memory :=
  if amount = 0 then mem
  else putLoop slab v amount (start / 32) (start % 32) (word mem slab (start / 32)) mem

/-- `slab->mark(start, amount)`. -/
def mark (start amount : ℕ) : Memory := put mem slab true start amount

/-- `slab->unmark(start, amount)`. -/
def unmark (start amount : ℕ) : Memory := put mem slab false start amount

/-- The variables `index`, `combo` and `start` of `findFree`. -/
structure Scan where
  index : ℕ
  combo : ℕ
  start : ℤ
  deriving DecidableEq, Repr

/-- The inner loop of `findFree` over the `left` bits of `buffer` from `i` on. -/
def scanBits (buffer : BitVec 32) (amount : ℕ) : ℕ → ℕ → Scan → ℤ ⊕ Scan
  | 0, _, s => .inr s
  | left + 1, i, s =>
    if buffer &&& (1#32 <<< i) ≠ 0#32 then
      scanBits buffer amount left (i + 1) ⟨(s.index + 1) % 4294967296, 0, -1⟩
    else
      let start := if s.start = -1 then (s.index : ℤ) else s.start
      if s.combo + 1 = amount then .inl start
      else scanBits buffer amount left (i + 1) ⟨(s.index + 1) % 4294967296, s.combo + 1, start⟩

/-- The outer loop of `findFree`, for at most `fuel` iterations. -/
def findLoop (amount : ℕ) : ℕ → ℕ → Scan → Option ℤ
  | 0, _, _ => none
  | fuel + 1, ii, s =>
    if s.index ≤ pieces mem slab then
      let buffer := word mem slab ii
      if buffer = BitVec.allOnes 32 then
        findLoop amount fuel ((ii + 1) % 4294967296) ⟨(s.index + 32) % 4294967296, 0, -1⟩
      else
        match scanBits buffer amount (min (pieces mem slab - s.index) 32) 0 s with
        | .inl start => some start
        | .inr s => findLoop amount fuel ((ii + 1) % 4294967296) s
    else some (-1)

/-- `slab->findFree(amount)`. -/
def findFree (fuel amount : ℕ) : Option ℤ :=
  if amount > freePieces mem slab ∨ amount = 0 then some (-1)
  else findLoop mem slab amount fuel 0 ⟨0, 0, -1⟩

/-! ## What the bitmap operations do -/

variable {mem slab}

theorem word_setWord_self (ii : ℕ) (buffer : BitVec 32) :
    word (setWord mem slab ii buffer) slab ii = buffer := by
  rw [word, setWord, Memory.read_write (buffer.isLt.trans_le (by decide)), ofNat_toNat, setWidth_eq]

variable {ii jj amount index left i fuel : ℕ}

theorem word_setWord_ne (h : jj ≠ ii) (buf : BitVec 32) :
    word (setWord mem slab ii buf) slab jj = word mem slab jj := by
  rw [word, setWord, Memory.read_write_apart (by omega), word]

theorem setWord_word (ii : ℕ) : setWord mem slab ii (word mem slab ii) = mem := by
  have hl := mem.read_lt (slab + sizeofSlab + 4 * ii) 4
  rw [setWord, word, toNat_ofNat, mod_eq_of_lt (hl.trans_le (by decide)), Memory.write_read]

theorem setWord_setWord (ii : ℕ) (buf buffer' : BitVec 32) :
    setWord (setWord mem slab ii buf) slab ii buffer' = setWord mem slab ii buffer' :=
  Memory.write_write ..

def putBitAt (mem : Memory) (slab : ℕ) (v : Bool) (i : ℕ) : Memory :=
  setWord mem slab (i / 32) (putBit (word mem slab (i / 32)) (i % 32) v)

/-- Put `amount` bits from `start` on, one after the other. -/
def putBits (mem : Memory) (slab : ℕ) (v : Bool) : ℕ → ℕ → Memory
  | _, 0 => mem
  | start, amount + 1 => putBits (putBitAt mem slab v start) slab v (start + 1) amount

variable (v : Bool)

/-- **The buffered loop puts its bits one after the other**. -/
theorem putLoop_eq (amount ii ib : ℕ) (buffer : BitVec 32) (mem : Memory) (hi : ib < 32) :
    putLoop slab v amount ii ib buffer mem =
      putBits (setWord mem slab ii buffer) slab v (32 * ii + ib) amount := by
  induction amount generalizing ii ib buffer mem with
  | zero => rfl
  | succ amount ih =>
    have hd : (32 * ii + ib) / 32 = ii := by omega
    have hm : (32 * ii + ib) % 32 = ib := by omega
    have hp : putBitAt (setWord mem slab ii buffer) slab v (32 * ii + ib) =
        setWord mem slab ii (putBit buffer ib v) := by
      rw [putBitAt, hd, hm, word_setWord_self, setWord_setWord]
    rw [putLoop, putBits, hp]
    by_cases hw : ib + 1 ≥ 32
    · -- the next word is read into the buffer, and would go back unchanged
      rw [if_pos hw, ih (ii + 1) 0 _ _ (by omega), setWord_word,
        show 32 * (ii + 1) + 0 = 32 * ii + ib + 1 by omega]
    · rw [if_neg hw, ih ii (ib + 1) _ _ (by omega), Nat.add_assoc]

theorem put_eq (start amount : ℕ) :
    put mem slab v start amount = putBits mem slab v start amount := by
  rw [put]
  by_cases hz : amount = 0
  · rw [if_pos hz, hz, putBits]
  rw [if_neg hz, putLoop_eq _ _ _ _ _ _ (mod_lt _ (by decide)), setWord_word, div_add_mod]

theorem bit_putBitAt (i j : ℕ) :
    bit (putBitAt mem slab v i) slab j = if j = i then v else bit mem slab j := by
  rw [bit, putBitAt]
  by_cases hw : j / 32 = i / 32
  · rw [hw, word_setWord_self, getLsbD_putBit _ _ _ (mod_lt _ (by decide)), bit, hw]
    exact if_congr (by omega) rfl rfl
  · rw [word_setWord_ne hw, if_neg (by rintro rfl; exact hw rfl), bit]

/-- **`mark` and `unmark` put exactly their run of bits.** -/
theorem bit_putBits (start n j : ℕ) (mem : Memory) :
    bit (putBits mem slab v start n) slab j =
      if start ≤ j ∧ j < start + n then v else bit mem slab j := by
  induction n generalizing start mem with
  | zero => rw [putBits, if_neg (by omega)]
  | succ n ih =>
    rw [putBits, ih, bit_putBitAt]
    by_cases hj : j = start
    · rw [if_neg (by omega), if_pos hj, if_pos (by omega)]
    rw [if_neg hj]
    exact if_congr (by omega) rfl rfl

theorem putBits_of_not_mem (start n limit x : ℕ) (mem : Memory) (hl : start + n ≤ limit)
    (ha : limit % 32 = 0) (hx : x < slab + sizeofSlab ∨ slab + sizeofSlab + limit / 8 ≤ x) :
    putBits mem slab v start n x = mem x := by
  induction n generalizing start mem with
  | zero => rfl
  | succ n ih =>
    rw [putBits, ih (start + 1) _ (by omega), putBitAt, setWord, Memory.write_of_not_mem]
    omega

/-! ## What the search finds -/

/-- A run of `amount` clear bits below `pieces` starts at `start`. -/
def FreeRun (mem : Memory) (slab amount : ℕ) (start : ℤ) : Prop :=
  0 ≤ start ∧ start.toNat + amount ≤ pieces mem slab ∧
    ∀ j, start.toNat ≤ j → j < start.toNat + amount → bit mem slab j = false

/-- The first run of `amount` clear bits starts at `start`. -/
def Leftmost (mem : Memory) (slab amount : ℕ) (start : ℤ) : Prop :=
  FreeRun mem slab amount start ∧ ∀ t, FreeRun mem slab amount t → start ≤ t

/-- No run of `amount` clear bits starts in front of the clear bits at the end. -/
def Scan.Least (mem : Memory) (slab amount : ℕ) (s : Scan) : Prop :=
  ∀ t, FreeRun mem slab amount t → s.index ≤ t.toNat + s.combo

/-- The variables of the search after `index` bits. -/
structure Scan.Ok (mem : Memory) (slab amount : ℕ) (s : Scan) : Prop where
  combo_le : s.combo ≤ s.index
  combo_lt : s.combo < amount
  start : s.start = if s.combo = 0 then -1 else ((s.index - s.combo : ℕ) : ℤ)
  clear : ∀ j, s.index - s.combo ≤ j → j < s.index → bit mem slab j = false

theorem Scan.ok_reset (h : 0 < amount) : Scan.Ok mem slab amount ⟨index, 0, -1⟩ :=
  ⟨Nat.zero_le _, h, rfl, fun _ h1 h2 => absurd h2 (Nat.not_lt.mpr h1)⟩

variable {s : Scan}

theorem Scan.least_reset (ho : s.Ok mem slab amount) (hl : s.Least mem slab amount)
    (hlt : s.index < index) (hs : ∀ j, s.index ≤ j → j < index → bit mem slab j = true) :
    Scan.Least mem slab amount ⟨index, 0, -1⟩ := by
  intro t ht
  have he := hl t ht
  have hco := ho.combo_lt
  by_contra hn
  have hi : t.toNat < index := by
    rw [Nat.add_zero] at hn
    exact Nat.lt_of_not_le hn
  -- the run reaches over the first set bit that it does not begin behind
  have hc := ht.2.2 (max t.toNat s.index) (le_max_left ..) (by omega)
  have hf := hs (max t.toNat s.index) (le_max_right ..) (by omega)
  exact absurd (hc.symm.trans hf) (by decide)

/-- **The inner loop** over the rest of word `ii`. -/
theorem scanBits_spec (hi : i + left = 32) (hn : s.index = 32 * ii + i)
    (hbo : 32 * ii + 32 ≤ pieces mem slab) (hsm : pieces mem slab < 4294967296)
    (ho : s.Ok mem slab amount) (hl : s.Least mem slab amount) :
    (∃ start, scanBits (word mem slab ii) amount left i s = .inl start ∧
      Leftmost mem slab amount start) ∨
    ∃ s', scanBits (word mem slab ii) amount left i s = .inr s' ∧
      s'.index = 32 * ii + 32 ∧ s'.Ok mem slab amount ∧ s'.Least mem slab amount := by
  induction left generalizing i s with
  | zero => exact inr ⟨s, rfl, by omega, ho, hl⟩
  | succ left ih =>
    have hb : bit mem slab s.index = (word mem slab ii).getLsbD i := by
      rw [bit, show s.index / 32 = ii by omega, show s.index % 32 = i by omega]
    have hm : (s.index + 1) % 4294967296 = s.index + 1 := mod_eq_of_lt (by omega)
    rw [scanBits, hm]
    by_cases hs : (word mem slab ii).getLsbD i = true
    · rw [if_pos ((and_one_shiftLeft_ne_zero _ (by omega)).mpr hs)]
      have ha : 0 < amount := zero_lt_of_lt ho.combo_lt
      refine ih ?_ ?_ (Scan.ok_reset ha) (Scan.least_reset ho hl (lt_succ_self _) ?_)
      · omega
      · change s.index + 1 = _
        omega
      · intro j h1 h2
        rw [show j = s.index by omega, hb, hs]
    rw [if_neg fun h => hs ((and_one_shiftLeft_ne_zero _ (by omega)).mp h)]
    have hc : ∀ j, s.index - s.combo ≤ j → j < s.index + 1 → bit mem slab j = false := by
      intro j h1 h2
      by_cases hj : j = s.index
      · rw [hj, hb]
        simpa using hs
      · exact ho.clear j h1 (by omega)
    have hst : (if s.start = -1 then (s.index : ℤ) else s.start) =
        ((s.index - s.combo : ℕ) : ℤ) := by
      rw [ho.start]
      by_cases hz : s.combo = 0
      · rw [if_pos hz, if_pos rfl, hz, Nat.sub_zero]
      · rw [if_neg hz, if_neg (by omega)]
    have he := ho.combo_le
    have hlt := ho.combo_lt
    simp only [hst]
    by_cases hd : s.combo + 1 = amount
    · rw [if_pos hd]
      refine inl ⟨_, rfl, ⟨by omega, ?_, fun j h1 h2 => hc j ?_ ?_⟩, fun t ht => ?_⟩
      · rw [Int.toNat_natCast]
        omega
      · rw [Int.toNat_natCast] at h1
        exact h1
      · rw [Int.toNat_natCast] at h2
        omega
      · have hf := hl t ht
        have hp := ht.1
        omega
    rw [if_neg hd]
    refine ih (by omega) ?_ ⟨?_, ?_, ?_, ?_⟩ fun t ht => ?_
    · change s.index + 1 = _
      omega
    · exact succ_le_succ he
    · exact Nat.lt_of_le_of_ne hlt hd
    · rw [if_neg (succ_ne_zero _), Nat.add_sub_add_right]
    · intro j h1 h2
      exact hc j (by simpa using h1) h2
    · have hf := hl t ht
      change s.index + 1 ≤ t.toNat + (s.combo + 1)
      omega

variable {r r' : ℤ}

theorem findLoop_past (hp : s.index = pieces mem slab) (hs : s.index + 32 < 4294967296)
    (h : findLoop mem slab amount fuel ii s = some r) (hi : ii < 4294967296) :
    r = -1 ∧ ∃ jj < 4294967296, word mem slab jj = allOnes 32 := by
  induction fuel generalizing ii with
  | zero => cases h
  | succ fuel ih =>
    rw [findLoop, if_pos hp.le] at h
    simp only [hp, Nat.sub_self, Nat.zero_min, scanBits] at h
    rw [← hp] at h
    split_ifs at h with hf
    · refine ⟨?_, ii, hi, hf⟩
      cases fuel with
      | zero => cases h
      | succ fuel =>
        rw [findLoop, if_neg] at h
        · exact (Option.some.inj h).symm
        rw [mod_eq_of_lt hs, Nat.not_le, ← hp]
        exact Nat.lt_add_of_pos_right (by decide)
    · exact ih h (mod_lt _ (by decide))

theorem findLoop_word (hal : pieces mem slab % 32 = 0) (hm : pieces mem slab < 4294967264)
    (hi : s.index = 32 * ii) (ht : s.index < pieces mem slab) (ho : s.Ok mem slab amount)
    (he : s.Least mem slab amount) :
    (∃ r, Leftmost mem slab amount r ∧ ∀ fuel, findLoop mem slab amount (fuel + 1) ii s = some r) ∨
    ∃ s', s'.index = 32 * (ii + 1) ∧ s'.Ok mem slab amount ∧ s'.Least mem slab amount ∧
      ∀ fuel, findLoop mem slab amount (fuel + 1) ii s = findLoop mem slab amount fuel (ii + 1) s' := by
  have ha : 0 < amount := zero_lt_of_lt ho.combo_lt
  have hl (fuel : ℕ) : findLoop mem slab amount (fuel + 1) ii s =
      if word mem slab ii = allOnes 32 then
        findLoop mem slab amount fuel (ii + 1) ⟨s.index + 32, 0, -1⟩
      else match scanBits (word mem slab ii) amount 32 0 s with
        | .inl start => some start
        | .inr s => findLoop mem slab amount fuel (ii + 1) s := by
    rw [findLoop, if_pos ht.le, mod_eq_of_lt (show ii + 1 < 4294967296 by omega),
      mod_eq_of_lt (show s.index + 32 < 4294967296 by omega),
      Nat.min_eq_right (show 32 ≤ pieces mem slab - s.index by omega)]
  by_cases hf : word mem slab ii = allOnes 32
  · refine inr ⟨⟨s.index + 32, 0, -1⟩, ?_, Scan.ok_reset ha,
      Scan.least_reset ho he (by omega) fun j h1 h2 => ?_, fun fuel => ?_⟩
    · change s.index + 32 = _
      omega
    · rw [bit, show j / 32 = ii by omega, hf, getLsbD_allOnes, decide_eq_true_eq]
      exact mod_lt _ (by decide)
    · rw [hl, if_pos hf]
  rcases scanBits_spec (Nat.zero_add 32) hi (by omega) (by omega) ho he with
    ⟨start, hs, hr⟩ | ⟨s', hs, hi', ho', hl'⟩
  · refine inl ⟨start, hr, fun fuel => ?_⟩
    rw [hl, if_neg hf, hs]
  · refine inr ⟨s', by omega, ho', hl', fun fuel => ?_⟩
    rw [hl, if_neg hf, hs]

theorem findLoop_words (ha : pieces mem slab % 32 = 0) (hs : pieces mem slab < 4294967264)
    (n ii : ℕ) (s : Scan) (hn : 32 * (ii + n) = pieces mem slab) (hi : s.index = 32 * ii)
    (hk : s.Ok mem slab amount) (hl : s.Least mem slab amount) :
    (∃ r, Leftmost mem slab amount r ∧ ∀ fuel, findLoop mem slab amount (fuel + n) ii s = some r) ∨
    (∀ t, ¬ FreeRun mem slab amount t) ∧ ∃ s', s'.index = pieces mem slab ∧
      ∀ fuel, findLoop mem slab amount (fuel + n) ii s = findLoop mem slab amount fuel (ii + n) s' := by
  induction n generalizing ii s with
  | zero =>
    refine inr ⟨fun t ht => ?_, s, by omega, fun fuel => rfl⟩
    have hle := hl t ht
    have hf := ht.2.1
    have hc := hk.combo_lt
    omega
  | succ n ih =>
    rcases findLoop_word ha hs hi (by omega) hk hl with
      ⟨r, hr, he⟩ | ⟨s1, hin1, hok1, hle1, hne⟩
    · exact inl ⟨r, hr, fun fuel => he (fuel + n)⟩
    rcases ih (ii + 1) s1 (by omega) hin1 hok1 hle1 with ⟨r, hr, he⟩ | ⟨ho, s', hd, hg⟩
    · exact inl ⟨r, hr, fun fuel => (hne (fuel + n)).trans (he fuel)⟩
    refine inr ⟨ho, s', hd, fun fuel => ?_⟩
    rw [show ii + (n + 1) = ii + 1 + n by omega]
    exact (hne (fuel + n)).trans (hg fuel)

theorem Scan.least_zero (n : ℕ) : Scan.Least mem slab n ⟨0, 0, -1⟩ :=
  fun _ _ => Nat.zero_le _

theorem findLoop_mono (h : findLoop mem slab amount fuel ii s = some r) (more : ℕ) :
    findLoop mem slab amount (fuel + more) ii s = some r := by
  induction fuel generalizing ii s with
  | zero => cases h
  | succ fuel ih =>
    rw [Nat.add_right_comm]
    unfold findLoop at h ⊢
    by_cases hl : s.index ≤ pieces mem slab
    · rw [if_pos hl] at h ⊢
      dsimp only at h ⊢
      split_ifs at h ⊢
      · exact ih h
      cases hs : scanBits (word mem slab ii) amount (min (pieces mem slab - s.index) 32) 0 s with
      | inl start =>
        rw [hs] at h
        exact h
      | inr s' =>
        rw [hs] at h
        exact ih h
    · rw [if_neg hl] at h ⊢
      exact h

theorem findFree_leftmost (ha : pieces mem slab % 32 = 0) (hs : pieces mem slab < 4294967264)
    (ham : 0 < amount) (hl : amount ≤ freePieces mem slab)
    (h : findFree mem slab fuel amount = some r) :
    Leftmost mem slab amount r ∨ r = -1 ∧ (∀ t, ¬ FreeRun mem slab amount t) ∧
      ∃ jj < 4294967296, word mem slab jj = allOnes 32 := by
  rw [findFree, if_neg (by omega)] at h
  have hm := findLoop_mono h (pieces mem slab / 32)
  rcases findLoop_words ha hs (pieces mem slab / 32) 0 ⟨0, 0, -1⟩ (by omega) rfl
    (Scan.ok_reset ham) (Scan.least_zero amount) with ⟨r', hr', hre⟩ | ⟨hn, s', he, hg⟩
  · rw [hre] at hm
    exact inl (Option.some.inj hm ▸ hr')
  rw [hg, Nat.zero_add] at hm
  obtain ⟨hr, hf⟩ := findLoop_past he (by omega) hm (by omega)
  exact inr ⟨hr, hn, hf⟩

theorem findFree_spec (ha : pieces mem slab % 32 = 0) (hs : pieces mem slab < 4294967264)
    (h : findFree mem slab fuel amount = some r) : r = -1 ∨ FreeRun mem slab amount r := by
  by_cases hn : amount > freePieces mem slab ∨ amount = 0
  · rw [findFree, if_pos hn] at h
    exact inl (Option.some.inj h).symm
  rcases findFree_leftmost ha hs (by omega) (by omega) h with hu | ⟨hr, -⟩
  · exact inr hu.1
  · exact inl hr

/-! ## When the search ends -/

/-- The result that the search is for. -/
def Searched (mem : Memory) (slab amount : ℕ) (r : ℤ) : Prop :=
  Leftmost mem slab amount r ∨ r = -1 ∧ ∀ t, ¬ FreeRun mem slab amount t

theorem Searched.unique (h : Searched mem slab amount r) (h' : Searched mem slab amount r') :
    r = r' := by
  rcases h with hu | ⟨hr, hn⟩
  · rcases h' with hu' | ⟨-, hn⟩
    · exact le_antisymm (hu.2 _ hu'.1) (hu'.2 _ hu.1)
    · exact absurd hu.1 (hn r)
  · rcases h' with hu' | ⟨hr', -⟩
    · exact absurd hu'.1 (hn r')
    · rw [hr, hr']

/-- A slab of 32 pieces at address 0, the first of which is taken. -/
def oneTaken : Memory := fun x => if x = 0 ∨ x = 8 then 32 else if x = 48 then 1 else 0

theorem put_exact (v : Bool) {start : ℕ} (h : start + amount ≤ pieces mem slab) :
    (∀ j, bit (put mem slab v start amount) slab j =
      if start ≤ j ∧ j < start + amount then v else bit mem slab j) ∧
    (∀ x, x < slab + sizeofSlab ∨ slab + sizeofSlab + 4 * ((pieces mem slab + 31) / 32) ≤ x →
      put mem slab v start amount x = mem x) ∧
    ((∀ j, start ≤ j → j < start + amount → bit mem slab j = false) →
      ∀ j, bit (unmark (mark mem slab start amount) slab start amount) slab j = bit mem slab j) ∧
    ∀ v' start' amount', start + amount ≤ start' ∨ start' + amount' ≤ start → ∀ j,
      bit (put (put mem slab v start amount) slab v' start' amount') slab j =
        bit (put (put mem slab v' start' amount') slab v start amount) slab j := by
  simp only [mark, unmark, put_eq, bit_putBits]
  refine ⟨fun _ => trivial, fun x hx => ?_, fun hcl j => ?_, fun v' start' amount' hdis j => ?_⟩
  · exact putBits_of_not_mem v start amount (32 * ((pieces mem slab + 31) / 32)) x mem (by omega)
      (by omega) (by omega)
  · split_ifs with hj
    · rw [hcl j hj.1 hj.2]
    · rfl
  · split_ifs
    · omega
    all_goals rfl

theorem put_exact_oneTaken : 1 + 31 ≤ pieces oneTaken 0 ∧ bit (mark oneTaken 0 1 31) 0 31 = true :=
  ⟨by decide, (put_exact true (by decide)).1 31⟩

end Slab

end AexKernel.Mem
