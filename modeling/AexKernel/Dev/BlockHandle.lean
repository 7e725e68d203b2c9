import AexKernel.Basic
import AexKernel.Library.ByteCopy
import AexKernel.Mem.Slab

/-! # Reads from block devices (`dev/blockhandle.cpp`)

`BlockHandle::read` gives any range of bytes of a device that is read in whole sectors. Its loop is
also the one of `INodeFile::readBlocks`, with blocks of a file in place of sectors. -/

namespace AexKernel.Dev

open Library Mem

/-- Something that is read in blocks: `read mem buffer block count` stores `count` blocks. -/
structure BlockSource where
  size : ℕ
  size_pos : 0 < size
  read : Memory → ℕ → ℕ → ℕ → Except Fault Memory

/-- The state of the loop: `combo` holds `combo_start` and `combo_count` while the flag is set. -/
structure Copying where
  mem : Memory
  buffer : ℕ
  combo : Option (ℕ × ℕ) := none

namespace BlockSource

variable (b : BlockSource)

/-- The blocks that wait in the combo are read. -/
def flush (c : Copying) : Except Fault Copying :=
  match c.combo with
  | none => .ok c
  | some (block, count) => do
    let mem ← b.read c.mem c.buffer block count
    return { mem := mem, buffer := c.buffer + count * b.size }

/-- A combo that has reached the limit, if there is one, is read. -/
def checkLimit (limit : Option ℕ) (c : Copying) : Except Fault Copying :=
  if c.combo.isSome ∧ c.combo.map Prod.snd = limit then b.flush c else .ok c

def IsPerfect (start len : ℕ) : Prop := start % b.size = 0 ∧ len % b.size = 0
deriving Decidable

def offset (start : ℕ) : ℕ := start - intFloor start b.size

theorem offset_eq (start : ℕ) : b.offset start = start % b.size := by
  have := Nat.div_add_mod' start b.size
  unfold offset intFloor
  omega

/-- `llen`, the bytes up to the end of the block. -/
def pieceLen (start len : ℕ) : ℕ := min (b.size - b.offset start) len

theorem pieceLen_pos (start : ℕ) {len : ℕ} (h : len ≠ 0) : 0 < b.pieceLen start len := by
  have := Nat.mod_lt start b.size_pos
  rw [pieceLen, offset_eq]
  omega

/-- The `llen` bytes from `start` on, in one block: a whole block goes to the combo, and a part of
one is copied from a buffer of its own. -/
def piece (c : Copying) (start llen : ℕ) : Except Fault Copying :=
  if b.IsPerfect start llen then
    let (block, count) := c.combo.getD (start / b.size, 0)
    .ok { c with combo := some (block, count + 1) }
  else do
    let c ← b.flush c
    let sector ← b.read (fun _ => 0) 0 (start / b.size) 1
    return { mem := c.mem.copy c.buffer llen sector (b.offset start), buffer := c.buffer + llen }

/-- The loop, with a limit on `combo_count` or without one. -/
def copyLoop (limit : Option ℕ) (c : Copying) (start len : ℕ) : Except Fault Memory :=
  if len = 0 then do
    let c ← b.flush c
    return c.mem
  else do
    let llen := b.pieceLen start len
    let c ← b.checkLimit limit c
    let c ← b.piece c start llen
    copyLoop limit c (start + llen) (len - llen)
termination_by len
decreasing_by
  have := b.pieceLen_pos start ‹_›
  omega

/-! ## The loop copies the range -/

/-- A read of `count` blocks stores these blocks of `content`. -/
def RightAt (content : Memory) (buffer block count : ℕ) : Prop :=
  ∀ mem, b.read mem buffer block count =
    .ok (mem.copy buffer (count * b.size) content (block * b.size))

/-- A copy of `total` bytes of `content` from `first` on, after which the memory is `goal`. -/
structure Request where
  limit : Option ℕ
  content : Memory
  (first buffer total : ℕ)
  goal : Memory

/-- The reads that the loop can make for a request are right. -/
structure Serves (r : Request) : Prop where
  one : ∀ block, b.RightAt r.content 0 block 1
  combo : ∀ dst block count, dst + r.first = r.buffer + block * b.size → count * b.size ≤ r.total →
    (∀ m ∈ r.limit, 0 < m → count ≤ m) → b.RightAt r.content dst block count

/-- The first byte that is not in memory yet. -/
def next (c : Copying) (start : ℕ) : ℕ := c.combo.elim start fun combo => combo.1 * b.size

/-- The combo holds whole blocks up to `start`, no more than the limit; they come next in the
buffer, and a copy of the rest leads to the goal. -/
structure Copies (r : Request) (c : Copying) (start len : ℕ) : Prop where
  place : c.buffer + r.first = r.buffer + b.next c start
  first_le : r.first ≤ b.next c start
  last : start + len = r.first + r.total
  whole : ∀ block count, c.combo = some (block, count) →
    (block + count) * b.size = start ∧ ∀ m ∈ r.limit, 0 < m → count ≤ m
  result : c.mem.copy c.buffer (start + len - b.next c start) r.content (b.next c start) = r.goal

variable {b} {r : Request} {c : Copying} {start len : ℕ}

section

variable (hb : b.Serves r) (h : b.Copies r c start len)
include hb h

theorem Copies.flush : ∃ c', b.flush c = .ok c' ∧ c'.combo = none ∧ b.Copies r c' start len := by
  obtain ⟨mem, dst, combo⟩ := c
  cases combo with
  | none => exact ⟨_, rfl, rfl, h⟩
  | some combo =>
    obtain ⟨block, count⟩ := combo
    obtain ⟨hw, hl⟩ := h.whole block count rfl
    obtain ⟨hp, hf, hs, -, hr⟩ := h
    simp only [next, Option.elim] at hp hf hr
    rw [add_mul] at hw
    have hc : b.flush ⟨mem, dst, some (block, count)⟩ = .ok ⟨mem.copy dst (count * b.size) r.content
        (block * b.size), dst + count * b.size, none⟩ := by
      simp only [BlockSource.flush, hb.combo dst block count hp (by omega) hl mem, ok_bind,
        pure_eq_ok]
    refine ⟨_, hc, rfl, ?_, ?_, hs, nofun, ?_⟩
    · change dst + count * b.size + r.first = r.buffer + start
      omega
    · change r.first ≤ start
      omega
    · rw [← hr, next]
      dsimp only [Option.elim]
      rw [← hw, Memory.copy_copy]
      congr 1
      omega

theorem Copies.checkLimit : ∃ c', b.checkLimit r.limit c = .ok c' ∧ b.Copies r c' start len ∧
    ∀ block count, c'.combo = some (block, count) → ∀ m ∈ r.limit, 0 < m → count < m := by
  rw [BlockSource.checkLimit]
  split_ifs with hf
  · obtain ⟨c', hc, hn, h'⟩ := h.flush hb
    refine ⟨c', hc, h', ?_⟩
    rw [hn]
    nofun
  · refine ⟨c, rfl, h, fun block count hc m hm hp => ?_⟩
    refine lt_of_le_of_ne ((h.whole block count hc).2 m hm hp) fun he => hf ?_
    rw [hc, he]
    exact ⟨rfl, hm.symm⟩

theorem Copies.piece (hl : len ≠ 0)
    (hr : ∀ block count, c.combo = some (block, count) → ∀ m ∈ r.limit, 0 < m → count < m) :
    let llen := b.pieceLen start len
    ∃ c', b.piece c start llen = .ok c' ∧ b.Copies r c' (start + llen) (len - llen) := by
  intro llen
  have hd := Nat.div_add_mod' start b.size
  have hp := b.pieceLen_pos start hl
  have hm : llen = min (b.size - start % b.size) len := by
    rw [← offset_eq]
    rfl
  have hs := h.last
  rw [BlockSource.piece]
  split_ifs with hi
  · -- a whole block, behind the blocks that wait
    have hz : llen = b.size :=
      le_antisymm (by omega) (Nat.le_of_dvd hp (Nat.dvd_of_mod_eq_zero hi.2))
    obtain ⟨block, count, hg, hn, hw, hc⟩ : ∃ block count,
        c.combo.getD (start / b.size, 0) = (block, count) ∧ block * b.size = b.next c start ∧
          (block + count) * b.size = start ∧ ∀ m ∈ r.limit, 0 < m → count + 1 ≤ m := by
      have h0 := hi.1
      unfold next
      cases hc : c.combo with
      | none =>
        refine ⟨_, _, rfl, ?_, ?_, fun m _ hm => by omega⟩
        · dsimp only [Option.elim]
          omega
        · rw [add_zero]
          omega
      | some combo => exact ⟨_, _, rfl, rfl, (h.whole _ _ hc).1, hr _ _ hc⟩
    rw [hg]
    refine ⟨_, rfl, h.place.trans ?_, h.first_le.trans_eq hn.symm, by omega, ?_, ?_⟩
    · rw [← hn]
      rfl
    · rintro _ _ ⟨⟩
      rw [← add_assoc, add_mul, hw, one_mul, hz]
      exact ⟨rfl, hc⟩
    · rw [← h.result, ← hn, next]
      dsimp only [Option.elim]
      congr 1
      omega
  · -- a part of a block
    obtain ⟨c', hc, hn, h'⟩ := h.flush hb
    have hx : b.next c' start = start := by
      rw [next, hn]
      rfl
    obtain ⟨hq, hf, -, -, hr⟩ := h'
    rw [hx] at hq hf hr
    rw [hc, ok_bind, hb.one (start / b.size), ok_bind]
    refine ⟨_, rfl, ?_, hf.trans (Nat.le_add_right ..), by omega, nofun, ?_⟩
    · change c'.buffer + llen + r.first = r.buffer + (start + llen)
      omega
    · rw [← hr, next]
      dsimp only [Option.elim]
      rw [offset_eq, Memory.copy_of_copy (by omega), hd, Memory.copy_copy]
      congr 1
      omega

end

theorem Serves.copyLoop (hb : b.Serves r) (h : b.Copies r c start len) :
    b.copyLoop r.limit c start len = .ok r.goal := by
  induction len using Nat.strong_induction_on generalizing c start with
  | _ len ih =>
    rw [BlockSource.copyLoop]
    split_ifs with hl
    · obtain ⟨c', hc, hn, h'⟩ := h.flush hb
      rw [hc, ok_bind, ← h'.result, next, hn]
      simp [hl]
    · obtain ⟨c1, hc, h1, hr⟩ := h.checkLimit hb
      obtain ⟨c2, hd, h2⟩ := h1.piece hb hl hr
      have := b.pieceLen_pos start hl
      rw [hc, ok_bind, hd, ok_bind, ih _ (by omega) h2]

/-- **The loop copies the range** when the reads that it can make are right. -/
theorem copyLoop_eq {limit : Option ℕ} {content mem : Memory} {buffer : ℕ}
    (hb : b.Serves ⟨limit, content, start, buffer, len, mem.copy buffer len content start⟩) :
    b.copyLoop limit { mem := mem, buffer := buffer } start len =
      .ok (mem.copy buffer len content start) := by
  refine hb.copyLoop ⟨rfl, le_rfl, rfl, by rintro _ _ ⟨⟩, ?_⟩
  simp [next]

end BlockSource

/-! ## Block devices -/

/-- A device with the bytes of `disc`, which takes at most `maxCombo` sectors in one request. -/
structure BlockDevice where
  disc : Memory
  sectorSize : ℕ
  sectorSize_pos : 0 < sectorSize
  maxCombo : ℕ
  maxCombo_pos : 0 < maxCombo

namespace BlockDevice

variable (d : BlockDevice)

/-- `readBlock`. -/
def sectors : BlockSource where
  size := d.sectorSize
  size_pos := d.sectorSize_pos
  read mem buffer start count :=
    if count ≤ d.maxCombo then
      .ok (mem.copy buffer (count * d.sectorSize) d.disc (start * d.sectorSize))
    else .error .outOfBounds

def misalignedLen (start len : ℕ) : ℕ :=
  let misaligned := min (start &&& (d.sectorSize - 1)) len % 65536
  if misaligned = 0 then min (len % 65536) (d.sectorSize % 65536) else misaligned

/-- `BlockHandle::read`. A pass for an odd address that copies nothing is repeated for ever. -/
def read (mem : Memory) (buffer start len : ℕ) : Except Fault Memory :=
  if buffer % 2 = 0 then
    d.sectors.copyLoop (some d.maxCombo) { mem := mem, buffer := buffer } start len
  else do
    let sector ← d.sectors.read (fun _ => 0) 0 (start / d.sectorSize) 1
    let mlen := d.misalignedLen start len
    let mem := mem.copy buffer mlen sector 0
    if len - mlen = 0 then .ok mem
    else if mlen = 0 then .error .divergence
    else read mem (buffer + mlen) (start + mlen) (len - mlen)
termination_by len
decreasing_by omega

variable {d} {mem : Memory} {buffer : ℕ}

theorem sectors_read {count : ℕ} (h : count ≤ d.maxCombo) (block : ℕ) :
    d.sectors.RightAt d.disc buffer block count := fun _ => if_pos h

theorem read_of_even (start len : ℕ) (h : buffer % 2 = 0) :
    d.read mem buffer start len = .ok (mem.copy buffer len d.disc start) := by
  rw [BlockDevice.read, if_pos h]
  exact BlockSource.copyLoop_eq ⟨fun block => sectors_read d.maxCombo_pos block,
    fun _ block _ _ _ hm => sectors_read (hm _ rfl d.maxCombo_pos) block⟩

/-- **A read into an even address** stores the bytes of the device from `start` on and no others,
and never asks for more than `maxCombo` sectors at once. -/
theorem read_stores (d : BlockDevice) (mem : Memory) (buffer start len : ℕ) (h : buffer % 2 = 0) :
    ∃ mem', d.read mem buffer start len = .ok mem' ∧
      (∀ i < len, mem' (buffer + i) = d.disc (start + i)) ∧
      ∀ x, x < buffer ∨ buffer + len ≤ x → mem' x = mem x :=
  ⟨_, read_of_even start len h, fun _ hi => Memory.copy_of_lt hi,
    fun _ hx => Memory.overlay_of_not_mem hx⟩

/-- A disc of sectors of 2048 bytes. -/
def tray : BlockDevice := ⟨fun x => .ofNat 8 x, 2048, by decide, 16, by decide⟩

theorem read_stores_tray : ∃ mem, tray.read tray.disc 6 2047 5000 = .ok mem ∧ mem 6 = 255 := by
  obtain ⟨mem, hr, hi, -⟩ := read_stores tray tray.disc 6 2047 5000 (by decide)
  exact ⟨mem, hr, (hi 0 (by decide)).trans (by decide)⟩

/-- **A read of whole sectors into an odd address** goes sector by sector, and it does not return if
it is for 64 KiB or more: the length is cut to 16 bits, and at a multiple of 64 KiB nothing is left
of it. -/
theorem read_odd_sectors (d : BlockDevice) (mem : Memory) (buffer block count : ℕ) {k : ℕ}
    (hk : k ≤ 14) (hs : d.sectorSize = 2 ^ (k + 1)) (h : buffer % 2 = 1) :
    d.read mem buffer (block * d.sectorSize) (count * d.sectorSize) =
      if count * d.sectorSize < 65536 then
        .ok (mem.copy buffer (count * d.sectorSize) d.disc (block * d.sectorSize))
      else .error .divergence := by
  obtain ⟨q, hq⟩ : d.sectorSize ∣ 65536 := by
    rw [hs]
    exact pow_dvd_pow 2 (show k + 1 ≤ 16 by omega)
  obtain ⟨e, he⟩ : 2 ∣ d.sectorSize := hs ▸ dvd_pow_self 2 k.succ_ne_zero
  have hle : d.sectorSize ≤ 32768 := hs ▸ Nat.pow_le_pow_right (by omega) (by omega : k + 1 ≤ 15)
  have hp := d.sectorSize_pos
  induction count generalizing mem buffer block with
  | zero =>
    rw [BlockDevice.read, if_neg (by omega), sectors_read d.maxCombo_pos, ok_bind]
    simp [misalignedLen]
  | succ count ih =>
    have hm : d.misalignedLen (block * d.sectorSize) ((count + 1) * d.sectorSize) =
        min ((count + 1) % q * d.sectorSize) d.sectorSize := by
      have ha : block * d.sectorSize &&& (d.sectorSize - 1) = 0 := by
        rw [hs, Nat.and_two_pow_sub_one_eq_mod, Nat.mul_mod_left]
      rw [misalignedLen, ha, Nat.zero_min, if_pos rfl, Nat.mod_eq_of_lt (a := d.sectorSize)
        (by omega), hq, mul_comm d.sectorSize q, Nat.mul_mod_mul_right]
    have hl : (count + 1) * d.sectorSize = count * d.sectorSize + d.sectorSize := add_one_mul ..
    rw [BlockDevice.read, if_neg (by omega), sectors_read d.maxCombo_pos, ok_bind]
    dsimp only
    rw [hm, show d.sectors.size = d.sectorSize from rfl, Nat.mul_div_cancel _ hp]
    by_cases hz : (count + 1) % q = 0
    · -- a multiple of 64 KiB
      have hf := Nat.mul_le_mul_right d.sectorSize
        (Nat.le_of_dvd count.succ_pos (Nat.dvd_of_mod_eq_zero hz))
      rw [mul_comm q, ← hq] at hf
      rw [hz, zero_mul, Nat.zero_min, if_neg (by omega), if_pos rfl, if_neg hf.not_gt]
    have ho := Nat.mul_le_mul_right d.sectorSize (Nat.pos_of_ne_zero hz)
    have hi : count * d.sectorSize < 65536 → (count + 1) * d.sectorSize < 65536 := by
      intro hlt
      by_contra hge
      rw [hq, mul_comm] at hlt hge
      have h1 := Nat.lt_of_mul_lt_mul_left hlt
      have h2 := Nat.le_of_mul_le_mul_left (not_lt.mp hge) hp
      exact hz (by rw [show q = count + 1 by omega, Nat.mod_self])
    rw [min_eq_right (by omega), Memory.copy_of_copy (by omega), hl, Nat.add_sub_cancel, add_zero]
    by_cases h0 : count * d.sectorSize = 0
    · rw [h0, zero_add, if_pos rfl, if_pos (by omega)]
    rw [if_neg h0, if_neg hp.ne', ← add_one_mul, ih _ _ (block + 1) (by omega), ← hl]
    by_cases hc : count * d.sectorSize < 65536
    · rw [if_pos hc, if_pos (hi hc), add_one_mul block, Memory.copy_copy, hl, add_comm]
    · rw [if_neg hc, if_neg (by omega)]

theorem read_odd_sectors_tray : tray.read (fun _ => 0) 1 0 (32 * 2048) = .error .divergence :=
  read_odd_sectors tray _ 1 0 32 (k := 10) (by decide) rfl (by decide)

end BlockDevice

end AexKernel.Dev
