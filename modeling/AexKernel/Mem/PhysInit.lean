import AexKernel.Mem.FrameOwnership

/-! # Memory-map enumeration (`Phys::init`)

`Phys::init` walks the multiboot memory map and gives every usable region to `_createPieces`. -/

namespace AexKernel.Mem

open Library List FramePiece

/-! ## Memory maps -/

/-- `multiboot_memory_map_t`. -/
structure MmapEntry where
  addr : ℕ
  len : ℕ
  type : ℕ
  deriving DecidableEq, Repr

namespace MmapEntry

def last (m : MmapEntry) : ℕ := m.addr + m.len

def Apart (m n : MmapEntry) : Prop := m.last ≤ n.addr ∨ n.last ≤ m.addr
deriving Decidable

instance : Std.Symm Apart := ⟨fun _ _ h => Or.symm h⟩

/-- A type-1 region at or above 1 MiB with at least eight frames. -/
def Usable (m : MmapEntry) : Prop :=
  m.type = 1 ∧ 0x100000 ≤ m.addr ∧ 8 ≤ m.len / pageSize
deriving Decidable

theorem truncated_le (m : MmapEntry) : pageSize * toUInt32 (m.len / pageSize : ℕ) ≤ m.len :=
  (Nat.mul_le_mul_left _ (toUInt32_le _)).trans (Nat.mul_div_le m.len pageSize)

end MmapEntry

/-- A memory map: page-aligned regions inside the address space that do not overlap. -/
structure MemoryMap where
  entries : List MmapEntry
  aligned : ∀ m ∈ entries, m.addr % pageSize = 0 ∧ m.len % pageSize = 0
  bounded : ∀ m ∈ entries, m.last ≤ 18446744073709551616
  apart : entries.Pairwise MmapEntry.Apart

/-- The kernel image: the physical address of `_start_text` and the distance to `_end_bss`. -/
structure KernelImage where
  base : ℕ
  bytes : ℕ
  nonempty : 0 < bytes
  small : bytes ≤ 0x80000000

/-- `ceiltopg<size_t>`. -/
def ceiltopgNat (a : ℕ) : ℕ := toUInt64 (a + (pageSize - 1)) / pageSize

namespace KernelImage

/-- `frames_taken_by_kernel`. -/
def frames (image : KernelImage) : ℕ := ceiltopgNat image.bytes

/-- The frame at `a` holds a part of the kernel image. -/
def Holds (image : KernelImage) (a : ℕ) : Prop :=
  image.base < a + pageSize ∧ a < image.base + image.bytes

theorem frames_pos (image : KernelImage) : 0 < image.frames := by
  have h0 := image.nonempty
  have h1 := image.small
  simp only [frames, ceiltopgNat, toUInt64, pageSize]
  omega

theorem frames_le (image : KernelImage) : image.frames ≤ 524288 := by
  have h1 := image.small
  simp only [frames, ceiltopgNat, toUInt64, pageSize]
  omega

end KernelImage

/-! ## The enumeration -/

/-- `sizeof(frame_piece)`, the offset of `m_bitmap`. -/
def sizeofFramePiece : ℕ := 24

/-- The bits that `root_piece_memory` has room for. -/
def rootPieceBits : ℕ := (8192 - sizeofFramePiece) * 8

/-- Clear the `n` low bytes of a word. -/
def clearLowBytes (word : BitVec 32) (n : ℕ) : BitVec 32 :=
  if 4 ≤ n then 0#32 else (word >>> (8 * n)) <<< (8 * n)

/-- `memset(words, 0, n)` on memory of `words.length` words. -/
def memsetZero (words : List (BitVec 32)) (n : ℕ) : Except Fault (List (BitVec 32)) :=
  if n ≤ 4 * words.length then .ok (words.mapIdx fun j word => clearLowBytes word (n - 4 * j))
  else .error .outOfBounds

/-- `frame_piece::init(addr, amnt)` on a piece whose `m_bitmap` occupies `memory`. -/
def FramePiece.init (memory : List (BitVec 32)) (addr amnt : ℕ) : Except Fault FramePiece := do
  let bitmap ← memsetZero memory (amnt / 8)
  return { start := addr, size := amnt, framesFree := amnt, bitmap }

/-- The state of the enumeration. -/
structure Enumeration where
  phys : Phys
  fresh : List (List (BitVec 32))
  headers : List Region
  deriving DecidableEq

namespace Enumeration

/-- Before the first entry: `root_piece_memory` is zero. -/
def start : Enumeration where
  phys := ⟨[⟨0, 0, 0, List.replicate (rootPieceBits / 32) 0#32⟩], 0⟩
  fresh := [List.replicate (rootPieceBits / 32) 0#32]
  headers := []

/-- The first half of `_createPieces`. -/
def initRoot (image : KernelImage) (e : Enumeration) (root : FramePiece) (addr frames : ℕ) :
    Except Fault (Enumeration × ℕ × ℕ) := do
  let amnt := min (rootPieceBits : ℤ) (toInt32 frames)
  let root ← FramePiece.init root.bitmap addr (toUInt32 amnt)
  let root' ← root.alloc 0 (toUInt32 image.frames)
  return ({ e with phys := ⟨[root'], e.phys.framesAvailable⟩, fresh := [root.bitmap] },
    toUInt64 (addr + toInt32 (amnt * pageSize)), toUInt32 (frames - amnt))

/-- `frp_size`: the bytes that the header and the bitmap of a piece of `frames` frames get. -/
def frpSize (frames : ℕ) : ℤ :=
  toInt32 (toUInt64 (ceiltopgNat (sizeofFramePiece + toUInt32 (frames + 1) / 8) * pageSize))

/-- The second half of `_createPieces`. -/
def appendPiece (boot : ℕ → BitVec 32) (e : Enumeration) (addr frames : ℕ) :
    Except Fault Enumeration := do
  let (header, phys) ← e.phys.alloc (frpSize frames)
  let memory := (List.range (((frpSize frames).toNat - sizeofFramePiece) / 4)).map fun j =>
    boot (header + sizeofFramePiece + 4 * j)
  let piece ← FramePiece.init memory addr frames
  return ⟨⟨phys.pieces ++ [piece], phys.framesAvailable⟩, e.fresh ++ [piece.bitmap],
    ⟨header, frpSize frames⟩ :: e.headers⟩

/-- `_createPieces(addr, frames)`. -/
def createPieces (image : KernelImage) (boot : ℕ → BitVec 32) (e : Enumeration)
    (addr frames : ℕ) : Except Fault Enumeration :=
  match e.phys.pieces with
  | [root] => do
    let (e, addr, frames) ← e.initRoot image root addr frames
    if frames = 0 then return e else e.appendPiece boot addr frames
  | _ => if frames = 0 then return e else e.appendPiece boot addr frames

/-- The loop of `Phys::init` over the entries of the memory map. -/
def initLoop (image : KernelImage) (boot : ℕ → BitVec 32) :
    List MmapEntry → Enumeration → Except Fault Enumeration
  | [], e => .ok e
  | m :: rest, e =>
    if m.type ≠ 1 ∨ m.addr < 0x100000 then initLoop image boot rest e
    else if m.addr % 4096 ≠ 0 then .error (.kpanic "Misaligned memory region encountered")
    else if m.len / pageSize < 8 then initLoop image boot rest e
    else do
      let available := toUInt64 (e.phys.framesAvailable + (m.len / pageSize : ℕ))
      let e ← createPieces image boot { e with phys := ⟨e.phys.pieces, available⟩ } m.addr
        (toUInt32 (m.len / pageSize : ℕ))
      initLoop image boot rest e

end Enumeration

/-- `Phys::init` on the entries of the memory map. -/
def Phys.init (image : KernelImage) (boot : ℕ → BitVec 32) (map : MemoryMap) :
    Except Fault Enumeration :=
  Enumeration.initLoop image boot map.entries Enumeration.start

/-! ## What the enumeration is for -/

/-- The sum of `frames_free` over a list of pieces. -/
def freeSum (pieces : List FramePiece) : ℕ := (pieces.map FramePiece.framesFree).sum

/-- The frame at `a` belongs to the piece. -/
def FramePiece.HasFrame (p : FramePiece) (a : ℕ) : Prop := ∃ j < p.size, a = p.frameAddr j

/-- **Nothing of the map is lost.** -/
structure Enumeration.Lossless (image : KernelImage) (map : MemoryMap) (e : Enumeration) :
    Prop where
  covered : ∀ m ∈ map.entries, m.Usable → ∀ i < m.len / pageSize,
    ∃! k : ℕ, ∃ p : FramePiece, e.phys.pieces[k]? = some p ∧ p.HasFrame (m.addr + pageSize * i)
  clear : ∀ m ∈ map.entries, m.Usable → ∀ i < m.len / pageSize, ∀ p ∈ e.phys.pieces,
    ∀ j < p.size, m.addr + pageSize * i = p.frameAddr j → bitAt p.bitmap j = true →
      image.Holds (p.frameAddr j) ∨ ∃ r ∈ e.headers, r.Contains (p.frameAddr j)
  /-- Every bitmap word that a scan of the piece reads exists and was zero after its `init`. -/
  scanned : ∀ (k : ℕ) (p : FramePiece), e.phys.pieces[k]? = some p → ∀ j, 32 * j < p.size →
    ∃ words, e.fresh[k]? = some words ∧ words[j]? = some 0#32
  /-- `frames_available` is the number of free frames. -/
  counted : e.phys.framesAvailable = freeSum e.phys.pieces

/-- `Phys::init` returns, and nothing of the map is lost. -/
def LosesNothing (image : KernelImage) (boot : ℕ → BitVec 32) (map : MemoryMap) : Prop :=
  ∃ e, Phys.init image boot map = .ok e ∧ e.Lossless image map

/-! ## What one region does to the state -/

variable {piece piece' root : FramePiece} {amount addr amnt n frames addr' frames' available : ℕ}

theorem FramePiece.alloc_ok {lid : ℤ} (h : piece.alloc lid amount = .ok piece') :
    piece'.start = piece.start ∧ piece'.size = piece.size ∧
      piece'.framesFree = toUInt32 (piece.framesFree - amount) := by
  obtain ⟨bitmap, -, hr⟩ := bind_eq_ok.mp h
  cases hr
  exact ⟨rfl, rfl, rfl⟩

variable {memory words : List (BitVec 32)}

theorem FramePiece.init_ok (h : init memory addr amnt = .ok piece) :
    piece.start = addr ∧ piece.size = amnt ∧ piece.framesFree = amnt := by
  obtain ⟨bitmap, -, hr⟩ := bind_eq_ok.mp h
  cases hr
  exact ⟨rfl, rfl, rfl⟩

theorem memsetZero_spec (h : n ≤ 4 * words.length) :
    ∃ words', memsetZero words n = .ok words' ∧ words'.length = words.length ∧
      ∀ j < 8 * n, bitAt words' j = false := by
  refine ⟨_, if_pos h, length_mapIdx, fun j hj => ?_⟩
  obtain ⟨word, hw⟩ : ∃ word, words[j / 32]? = some word :=
    ⟨_, getElem?_eq_getElem (by omega)⟩
  have hc : (words.mapIdx fun j word => clearLowBytes word (n - 4 * j))[j / 32]? =
      some (clearLowBytes word (n - 4 * (j / 32))) := by simp [hw]
  rw [bitAt_of_getElem? hc, clearLowBytes]
  split
  · exact BitVec.getLsbD_zero
  rw [BitVec.getLsbD_shiftLeft, decide_eq_true (show j % 32 < 8 * (n - 4 * (j / 32)) by omega)]
  simp

/-- The pieces `ps'` have the ranges of the pieces `ps`. -/
def SameRanges (ps ps' : List FramePiece) : Prop :=
  List.Forall₂ (fun p p' => p'.start = p.start ∧ p'.size = p.size) ps ps'

variable {pieces pieces' ps ps' : List FramePiece}

theorem Phys.allocLoop_ok (h : Phys.allocLoop frames pieces = .ok (addr, pieces')) :
    SameRanges pieces pieces' ∧
      ((freeSum pieces' : ℤ) - (freeSum pieces - frames)) % 4294967296 = 0 := by
  induction pieces generalizing addr pieces' with
  | nil => cases h
  | cons piece rest ih =>
    -- the piece is skipped: the rest of the list does the work
    have hk : ∀ rest', (∃ a, Phys.allocLoop frames rest = .ok (a, rest')) →
        SameRanges (piece :: rest) (piece :: rest') ∧
          ((freeSum (piece :: rest') : ℤ) - (freeSum (piece :: rest) - frames)) % 4294967296
            = 0 := by
      rintro rest' ⟨a, hr⟩
      obtain ⟨hsa, hs⟩ := ih hr
      refine ⟨.cons ⟨rfl, rfl⟩ hsa, ?_⟩
      simp only [freeSum, map_cons, sum_cons] at hs ⊢
      omega
    have hre : SameRanges rest rest := forall₂_same.mpr fun _ _ => ⟨rfl, rfl⟩
    rw [Phys.allocLoop] at h
    by_cases hf : piece.framesFree < frames
    · rw [if_pos hf] at h
      obtain ⟨⟨a, rest'⟩, hr, he⟩ := bind_eq_ok.mp h
      cases he
      exact hk rest' ⟨_, hr⟩
    rw [if_neg hf] at h
    obtain ⟨lid, -, h⟩ := bind_eq_ok.mp h
    by_cases hn : lid = -1
    · rw [if_pos hn] at h
      obtain ⟨⟨a, rest'⟩, hr, he⟩ := bind_eq_ok.mp h
      cases he
      exact hk rest' ⟨_, hr⟩
    rw [if_neg hn] at h
    obtain ⟨piece', ha, he⟩ := bind_eq_ok.mp h
    cases he
    obtain ⟨ht, hi, hfr⟩ := alloc_ok ha
    refine ⟨.cons ⟨ht, hi⟩ hre, ?_⟩
    have hm := toUInt32_emod (piece.framesFree - frames)
    simp only [freeSum, map_cons, sum_cons, hfr]
    omega

def FramePiece.Within (p : FramePiece) (m : MmapEntry) : Prop :=
  m.addr ≤ p.start ∧ p.last ≤ m.last

namespace Enumeration

/-- `frames_available` exceeds the free frames by `k`, modulo `2 ^ 32`. -/
def Off (e : Enumeration) (k : ℤ) : Prop :=
  ((e.phys.framesAvailable : ℤ) - freeSum e.phys.pieces - k) % 4294967296 = 0

theorem rootAmount {amnt : ℤ} (hf : frames < 4294967296)
    (ha : amnt = min (rootPieceBits : ℤ) (toInt32 frames)) :
    toUInt32 amnt + toUInt32 (frames - amnt) = frames ∧
      (toUInt32 (frames - amnt) ≠ 0 → toInt32 (amnt * pageSize) = toUInt32 amnt * pageSize) := by
  have hb : rootPieceBits = 65344 := rfl
  rcases lt_or_ge frames 2147483648 with hl | hg
  · rw [toInt32_of_range (by omega) (by omega), hb] at ha
    have hw : (toUInt32 amnt : ℤ) = amnt := toUInt32_of_range (by omega) (by omega)
    have hr : (toUInt32 (frames - amnt) : ℤ) = frames - amnt :=
      toUInt32_of_range (by omega) (by omega)
    refine ⟨by omega, fun _ => ?_⟩
    rw [hw, toInt32_of_range] <;> simp only [pageSize] <;> omega
  have hn : toInt32 frames = frames - 4294967296 := by
    unfold toInt32
    omega
  have hv : amnt = frames - 4294967296 := by omega
  have hw : toUInt32 amnt = frames := by
    unfold toUInt32
    omega
  have hr : toUInt32 (frames - amnt) = 0 := by
    rw [hv, sub_sub_cancel]
    rfl
  exact ⟨by rw [hw, hr, Nat.add_zero], fun h => absurd hr h⟩

variable {image : KernelImage} {e e' : Enumeration}

theorem initRoot_ok (hfr : frames < 4294967296)
    (hl : addr + pageSize * frames ≤ 18446744073709551616)
    (h : e.initRoot image root addr frames = .ok (e', addr', frames')) :
    ∃ root', e'.phys = ⟨[root'], e.phys.framesAvailable⟩ ∧ root'.start = addr ∧
      root'.size + frames' = frames ∧ (frames' ≠ 0 → addr' = root'.last) ∧
      ((root'.framesFree : ℤ) - (root'.size - image.frames)) % 4294967296 = 0 := by
  rw [initRoot] at h
  obtain ⟨root1, hi, h⟩ := bind_eq_ok.mp h
  obtain ⟨root2, ha, hr⟩ := bind_eq_ok.mp h
  simp only [pure_eq_ok, Except.ok.injEq, Prod.mk.injEq] at hr
  obtain ⟨rfl, rfl, rfl⟩ := hr
  obtain ⟨ht, hs, hf⟩ := init_ok hi
  obtain ⟨ht', hs', hf'⟩ := alloc_ok ha
  have hm := toUInt32_emod ((root1.framesFree : ℤ) - toUInt32 image.frames)
  have hm' := toUInt32_emod (image.frames : ℤ)
  obtain ⟨hp, hpr⟩ := rootAmount hfr rfl
  refine ⟨root2, rfl, ht'.trans ht, ?_, fun he => ?_, ?_⟩
  · rw [hs', hs]
    exact hp
  · rw [last, ht', ht, hs', hs, hpr he]
    have hc : (addr : ℤ) + toUInt32 (min (rootPieceBits : ℤ) (toInt32 frames)) * pageSize =
        ((addr + pageSize * toUInt32 (min (rootPieceBits : ℤ) (toInt32 frames)) : ℕ) : ℤ) := by
      push_cast
      ring
    rw [hc]
    refine toUInt64_natCast ?_
    simp only [pageSize] at hl ⊢
    omega
  · rw [hf', hs', hs]
    rw [hf] at hm ⊢
    omega

theorem createPieces_fits (boot : ℕ → BitVec 32) (addr : ℕ) (hr : e.phys.pieces = [root])
    (hl : root.bitmap.length = rootPieceBits / 32) (hf : frames ≤ rootPieceBits)
    (hk : image.frames ≤ 8 * (frames / 8)) :
    ∃ root' fresh, e.createPieces image boot addr frames =
        .ok ⟨⟨[root'], e.phys.framesAvailable⟩, fresh, e.headers⟩ ∧
      root'.bitmap.length = rootPieceBits / 32 ∧ root'.start = addr ∧ root'.size = frames := by
  have hi : rootPieceBits = 65344 := rfl
  have ham : min (rootPieceBits : ℤ) (toInt32 frames) = frames := by
    rw [toInt32_of_range (by omega) (by omega)]
    omega
  have he : frames / 8 ≤ 4 * root.bitmap.length := by omega
  obtain ⟨words, hm, ho, hc⟩ := memsetZero_spec he
  have hro : (0 : ℤ).toNat + image.frames ≤ 32 * words.length := by
    rw [Int.toNat_zero]
    omega
  obtain ⟨bitmap, ha, hb, -⟩ :=
    alloc_spec ⟨addr, frames, frames, words⟩ le_rfl (by decide) hro fun j _ hj =>
      hc j (by rw [Int.toNat_zero] at hj; omega)
  have hw : toUInt32 (frames : ℤ) = frames := toUInt32_natCast (by omega)
  have hk' : toUInt32 (image.frames : ℤ) = image.frames :=
    toUInt32_natCast (by have := image.frames_le; omega)
  have hn : toUInt32 0 = 0 := rfl
  refine ⟨⟨addr, frames, toUInt32 (frames - image.frames), bitmap⟩, [words], ?_,
    hb.trans (ho.trans hl), rfl, rfl⟩
  rw [createPieces, hr]
  simp only [initRoot, init, ham, hw, hk', hm, ok_bind, pure_eq_ok,
    ha, sub_self, hn, if_true]

variable {boot : ℕ → BitVec 32}

theorem appendPiece_ok (h : e.appendPiece boot addr frames = .ok e') :
    ∃ pieces piece, e'.phys.pieces = pieces ++ [piece] ∧ SameRanges e.phys.pieces pieces ∧
      piece.start = addr ∧ piece.size = frames ∧
      ∀ k, e.Off (k + frames) → e'.Off k := by
  rw [appendPiece] at h
  obtain ⟨⟨header, phys⟩, ha, h⟩ := bind_eq_ok.mp h
  obtain ⟨piece, hi, hr⟩ := bind_eq_ok.mp h
  cases hr
  rw [Phys.alloc] at ha
  obtain ⟨⟨a, pieces⟩, hl, hr⟩ := bind_eq_ok.mp ha
  cases hr
  obtain ⟨ht, hsi, hf⟩ := init_ok hi
  obtain ⟨hsa, hs⟩ := Phys.allocLoop_ok hl
  refine ⟨pieces, piece, rfl, hsa, ht, hsi, fun k ho => ?_⟩
  generalize frameCount (frpSize frames) = n at hs ⊢
  have hm := toUInt64_emod32 ((e.phys.framesAvailable : ℤ) - n)
  simp only [Off, freeSum, map_append, map_cons, map_nil, sum_append,
    sum_cons, sum_nil, hf] at ho hs ⊢
  omega

/-! ## What every run leaves behind -/

/-- A usable region of which no piece knows. -/
def Lost (seen : List MmapEntry) (e : Enumeration) : Prop :=
  ∃ m ∈ seen, m.Usable ∧ ∀ p ∈ e.phys.pieces, ∃ n, m.Apart n ∧ p.Within n

/-- The state after the entries `seen`. -/
inductive After (image : KernelImage) (seen : List MmapEntry) (e : Enumeration) : Prop
  | untouched (state : e = start) (none : ∀ m ∈ seen, ¬ m.Usable)
  | lost (lost : Lost seen e) (pieces : e.phys.pieces ≠ [])
  | off (off : e.Off image.frames) (used : ∃ m ∈ seen, m.Usable) (pieces : e.phys.pieces ≠ [])

variable {P : MmapEntry → Prop}

theorem within_of_sameRanges (h : SameRanges ps ps') (hi : ∀ p ∈ ps, ∃ n, P n ∧ p.Within n) :
    ∀ p ∈ ps', ∃ n, P n ∧ p.Within n := by
  induction h with
  | nil => simp
  | cons hh _ ih =>
    intro p hp
    rcases mem_cons.mp hp with rfl | hp'
    · obtain ⟨n, hn, hw⟩ := hi _ mem_cons_self
      refine ⟨n, hn, ?_⟩
      rw [Within, last, hh.1, hh.2]
      exact hw
    · exact ih (fun q hq => hi q (mem_cons_of_mem _ hq)) p hp'

variable {m : MmapEntry}

theorem within_of_appendPiece (h : e.appendPiece boot addr frames = .ok e') (hm : P m)
    (hl : m.addr ≤ addr) (hh : addr + pageSize * frames ≤ m.last)
    (hi : ∀ p ∈ e.phys.pieces, ∃ n, P n ∧ p.Within n) :
    ∀ p ∈ e'.phys.pieces, ∃ n, P n ∧ p.Within n := by
  obtain ⟨pieces, piece, hpi, hs, ht, hsi, -⟩ := appendPiece_ok h
  intro p hp
  rw [hpi, mem_append, mem_singleton] at hp
  rcases hp with hp' | rfl
  · exact within_of_sameRanges hs hi p hp'
  refine ⟨m, hm, ?_⟩
  rw [Within, last, ht, hsi]
  exact ⟨hl, hh⟩

theorem appendRest_ok (h : (if frames = 0 then pure e else e.appendPiece boot addr frames) = .ok e')
    (hn : e.phys.pieces ≠ []) (hm : P m)
    (hr : frames ≠ 0 → m.addr ≤ addr ∧ addr + pageSize * frames ≤ m.last) :
    e'.phys.pieces ≠ [] ∧ (∀ k, e.Off (k + frames) → e'.Off k) ∧
      ((∀ p ∈ e.phys.pieces, ∃ n, P n ∧ p.Within n) →
        ∀ p ∈ e'.phys.pieces, ∃ n, P n ∧ p.Within n) := by
  by_cases hz : frames = 0
  · rw [if_pos hz] at h
    cases h
    exact ⟨hn, fun k ho => by simpa [hz] using ho, fun hi => hi⟩
  rw [if_neg hz] at h
  obtain ⟨hl, hh⟩ := hr hz
  refine ⟨?_, ?_, within_of_appendPiece h hm hl hh⟩
  all_goals obtain ⟨pieces, piece, hp, -, -, -, ho⟩ := appendPiece_ok h
  · simp [hp]
  · exact ho

section Step

section

variable (h : e.createPieces image boot m.addr (toUInt32 (m.len / pageSize : ℕ)) = .ok e')
include h

theorem createPieces_single (hl : m.last ≤ 18446744073709551616) (hr : e.phys.pieces = [root]) :
    e'.phys.pieces ≠ [] ∧ (∀ p ∈ e'.phys.pieces, p.Within m) ∧
      (((e.phys.framesAvailable : ℤ) - (m.len / pageSize : ℕ)) % 4294967296 = 0 →
        e'.Off image.frames) := by
  have hm := toUInt32_emod (m.len / pageSize : ℕ)
  have hlt := toUInt32_lt (m.len / pageSize : ℕ)
  have hle := m.truncated_le
  generalize toUInt32 (m.len / pageSize : ℕ) = frames at *
  have he : m.addr + pageSize * frames ≤ m.last := Nat.add_le_add_left hle _
  rw [createPieces, hr] at h
  obtain ⟨⟨e1, addr, rest⟩, hi, h⟩ := bind_eq_ok.mp h
  obtain ⟨root', hh, ht, hsi, ha, hfr⟩ := initRoot_ok hlt (he.trans hl) hi
  have hr' : root'.Within m := by
    rw [Within, last, ht]
    simp only [pageSize] at he ⊢
    omega
  have ho : rest ≠ 0 → m.addr ≤ addr ∧ addr + pageSize * rest ≤ m.last := by
    intro hs
    rw [ha hs, last, ht]
    simp only [pageSize] at he ⊢
    omega
  obtain ⟨hn, hf, hin⟩ := appendRest_ok (P := (· = m)) h (by simp [hh]) rfl ho
  refine ⟨hn, fun p hp => ?_, fun hv => hf _ ?_⟩
  · obtain ⟨n, rfl, hw⟩ := hin (by simpa [hh] using hr') p hp
    exact hw
  · simp only [Off, hh, freeSum, map_cons, map_nil, sum_cons, sum_nil]
    omega

theorem createPieces_many (hn : e.phys.pieces ≠ []) (ha : ∀ root, e.phys.pieces ≠ [root])
    (hm : P m) :
    e'.phys.pieces ≠ [] ∧ (∀ k, e.Off (k + (m.len / pageSize : ℕ)) → e'.Off k) ∧
      ((∀ p ∈ e.phys.pieces, ∃ n, P n ∧ p.Within n) →
        ∀ p ∈ e'.phys.pieces, ∃ n, P n ∧ p.Within n) := by
  have ho := toUInt32_emod (m.len / pageSize : ℕ)
  have hl := m.truncated_le
  generalize toUInt32 (m.len / pageSize : ℕ) = frames at *
  have hr : (if frames = 0 then pure e else e.appendPiece boot m.addr frames) = .ok e' := by
    rw [createPieces] at h
    split at h
    · exact absurd ‹_› (ha _)
    · exact h
  obtain ⟨hn', hf, hi⟩ := appendRest_ok hr hn hm fun _ => ⟨le_rfl, Nat.add_le_add_left hl _⟩
  refine ⟨hn', fun k hk => hf k ?_, hi⟩
  simp only [Off] at hk ⊢
  omega

end

/-- **One region.** The trichotomy survives each usable region. -/
theorem After.createPieces {seen : List MmapEntry} (haf : After image seen e) (hm : m.Usable)
    (hl : m.last ≤ 18446744073709551616) (hap : ∀ n ∈ seen, n.Apart m)
    (hv : available = toUInt64 (e.phys.framesAvailable + (m.len / pageSize : ℕ)))
    (h : Enumeration.createPieces image boot { e with phys := ⟨e.phys.pieces,
      available⟩ } m.addr (toUInt32 (m.len / pageSize : ℕ)) = .ok e') :
    After image (seen ++ [m]) e' := by
  have ho := toUInt64_emod32 (e.phys.framesAvailable + (m.len / pageSize : ℕ))
  rw [← hv] at ho
  have hu : ∃ n ∈ seen ++ [m], n.Usable := ⟨m, by simp, hm⟩
  by_cases hs : ∃ root, e.phys.pieces = [root]
  · obtain ⟨root, hr⟩ := hs
    obtain ⟨he, hw, hf⟩ := createPieces_single h hl hr
    -- a region seen before is forgotten, otherwise this is the first one
    have hfo : (∃ n ∈ seen, n.Usable) → After image (seen ++ [m]) e' := by
      rintro ⟨n, hn, hnu⟩
      exact .lost ⟨n, by simp [hn], hnu, fun p hp => ⟨m, hap n hn, hw p hp⟩⟩ he
    cases haf with
    | untouched state _ =>
      refine .off (hf ?_) hu he
      subst state
      simp only [start] at ho ⊢
      omega
    | lost lost _ =>
      obtain ⟨n, hn, hnu, _⟩ := lost
      exact hfo ⟨n, hn, hnu⟩
    | off _ used _ => exact hfo used
  have ha : ∀ root, e.phys.pieces ≠ [root] := fun root hr => hs ⟨root, hr⟩
  cases haf with
  | untouched state _ => exact absurd (by rw [state]; rfl) (ha _)
  | lost lost he =>
    obtain ⟨n, hn, hnu, hi⟩ := lost
    obtain ⟨hn', _, hi'⟩ := createPieces_many (P := n.Apart) h he ha (hap n hn)
    exact .lost ⟨n, by simp [hn], hnu, hi' hi⟩ hn'
  | off off _ he =>
    obtain ⟨hn', hf, _⟩ := createPieces_many (P := fun _ => True) h he ha trivial
    refine .off (hf _ ?_) hu hn'
    simp only [Off] at off ⊢
    omega

end Step

variable {seen todo rest : List MmapEntry}

/-- **The whole map.** The trichotomy holds after the loop of `Phys::init`. -/
theorem After.initLoop (hf : After image seen e) (ha : (seen ++ todo).Pairwise MmapEntry.Apart)
    (hla : ∀ m ∈ todo, m.last ≤ 18446744073709551616)
    (h : Enumeration.initLoop image boot todo e = .ok e') : After image (seen ++ todo) e' := by
  induction todo generalizing seen e with
  | nil =>
    cases h
    rwa [append_nil]
  | cons m rest ih =>
    rw [append_cons] at ha ⊢
    have hr : ∀ n ∈ rest, n.last ≤ 18446744073709551616 := fun n hn =>
      hla n (mem_cons_of_mem _ hn)
    -- an entry that is not usable changes nothing
    have hs : ¬ m.Usable → After image (seen ++ [m]) e := by
      intro hm
      cases hf with
      | untouched state none =>
        refine .untouched state fun n hn => ?_
        rcases mem_append.mp hn with hn' | hn'
        · exact none n hn'
        · rwa [mem_singleton.mp hn']
      | lost lost he =>
        obtain ⟨n, hn, hu, hi⟩ := lost
        exact .lost ⟨n, by simp [hn], hu, hi⟩ he
      | off off used he =>
        obtain ⟨n, hn, hu⟩ := used
        exact .off off ⟨n, by simp [hn], hu⟩ he
    rw [Enumeration.initLoop] at h
    split at h
    next ht =>
      refine ih (hs fun hm => ?_) ha hr h
      rcases ht with ht | hl
      · exact ht hm.1
      · exact absurd hm.2.1 (Nat.not_le.mpr hl)
    next ht =>
      split at h
      · cases h
      split at h
      next hfe => exact ih (hs fun hm => absurd hm.2.2 (Nat.not_le.mpr hfe)) ha hr h
      next hma =>
        push Not at ht
        obtain ⟨e1, hc, h⟩ := bind_eq_ok.mp h
        refine ih (hf.createPieces ⟨ht.1, ht.2, Nat.not_lt.mp hma⟩
          (hla m mem_cons_self) ?_ rfl hc) ha hr h
        intro n hn
        exact (pairwise_append.mp (pairwise_append.mp ha).1).2.2 n hn m (by simp)

theorem initLoop_cons_usable (hm : m.Usable) (ha : m.addr % pageSize = 0) :
    Enumeration.initLoop image boot (m :: rest) e =
      (createPieces image boot
        { e with phys := ⟨e.phys.pieces,
          toUInt64 (e.phys.framesAvailable + (m.len / pageSize : ℕ))⟩ } m.addr
        (toUInt32 (m.len / pageSize : ℕ))) >>= Enumeration.initLoop image boot rest := by
  obtain ⟨ht, hl, hma⟩ := hm
  have hp : ¬ m.addr % 4096 ≠ 0 := not_not.mpr ha
  rw [Enumeration.initLoop, if_neg (by simp [ht, hl]), if_neg hp, if_neg (Nat.not_lt.mpr hma)]

theorem initLoop_cons_fits (image : KernelImage) (boot : ℕ → BitVec 32) (m : MmapEntry)
    (hm : m.Usable) (ha : m.addr % pageSize = 0) (hr : e.phys.pieces = [root])
    (hl : root.bitmap.length = rootPieceBits / 32) (hf : m.len / pageSize ≤ rootPieceBits)
    (hk : image.frames ≤ 8 * (m.len / pageSize / 8)) :
    ∃ root' available fresh, root'.bitmap.length = rootPieceBits / 32 ∧ root'.start = m.addr ∧
      ∀ rest, Enumeration.initLoop image boot (m :: rest) e =
        Enumeration.initLoop image boot rest ⟨⟨[root'], available⟩, fresh, e.headers⟩ := by
  have hw : toUInt32 (m.len / pageSize : ℕ) = m.len / pageSize :=
    toUInt32_natCast (hf.trans_lt (by decide))
  obtain ⟨root', fresh, hc, hl', hs, -⟩ := createPieces_fits boot m.addr
    (e := { e with phys := ⟨e.phys.pieces,
      toUInt64 (e.phys.framesAvailable + (m.len / pageSize : ℕ))⟩ }) hr hl hf hk
  refine ⟨root', toUInt64 (e.phys.framesAvailable + (m.len / pageSize : ℕ)), fresh, hl', hs,
    fun rest => ?_⟩
  rw [initLoop_cons_usable hm ha, hw, hc, ok_bind]

variable {map : MemoryMap}

theorem Lost.not_lossless (h : Lost map.entries e) : ¬ e.Lossless image map := by
  obtain ⟨m, hm, hu, hi⟩ := h
  intro hl
  obtain ⟨k, ⟨p, hp, j, hj, hf⟩, -⟩ :=
    hl.covered m hm hu 0 (by have := hu.2.2; omega)
  obtain ⟨n, ha, ho, hh⟩ := hi p (mem_of_getElem? hp)
  have he := hu.2.2
  simp only [MmapEntry.Apart, MmapEntry.last, last, FramePiece.frameAddr, pageSize]
    at ha ho hh hf he
  omega

theorem Off.not_lossless (h : e.Off image.frames) : ¬ e.Lossless image map := by
  intro hl
  have hp := image.frames_pos
  have he := image.frames_le
  have hc := hl.counted
  rw [Off] at h
  omega

theorem initLoop_of_not_usable (ho : ∀ m ∈ todo, ¬ m.Usable)
    (ha : ∀ m ∈ todo, m.addr % pageSize = 0) : Enumeration.initLoop image boot todo e = .ok e := by
  induction todo with
  | nil => rfl
  | cons m rest ih =>
    have hr := ih (fun n hn => ho n (mem_cons_of_mem _ hn))
      fun n hn => ha n (mem_cons_of_mem _ hn)
    have hm := ho m mem_cons_self
    have hp : ¬ m.addr % 4096 ≠ 0 := not_not.mpr (ha m mem_cons_self)
    rw [Enumeration.initLoop, if_neg hp, hr]
    split
    · rfl
    next ht =>
      push Not at ht
      rw [if_pos]
      by_contra hf
      exact hm ⟨ht.1, ht.2, Nat.not_lt.mp hf⟩

theorem start_lossless (hn : ∀ m ∈ map.entries, ¬ m.Usable) : start.Lossless image map where
  covered m hm hu := absurd hu (hn m hm)
  clear m hm hu := absurd hu (hn m hm)
  scanned k p hp j hj := by
    have hr : p = ⟨0, 0, 0, replicate (rootPieceBits / 32) 0#32⟩ :=
      mem_singleton.mp (mem_of_getElem? hp)
    rw [hr] at hj
    exact absurd hj (Nat.not_lt_zero _)
  counted := rfl

end Enumeration

/-- **Memory-map enumeration.** For every map, `Phys::init` returns a lossless list of pieces exactly
when the map has no usable region. -/
theorem losesNothing_iff (image : KernelImage) (boot : ℕ → BitVec 32) (map : MemoryMap) :
    LosesNothing image boot map ↔ ∀ m ∈ map.entries, ¬ m.Usable := by
  constructor
  · rintro ⟨e, hin, hl⟩
    have hbe : Enumeration.After image [] Enumeration.start := .untouched rfl (by simp)
    cases hbe.initLoop (by simpa using map.apart) map.bounded hin with
    | untouched _ none => exact none
    | lost lost _ => exact absurd hl lost.not_lossless
    | off off _ _ => exact absurd hl (Enumeration.Off.not_lossless off)
  intro hnon
  exact ⟨Enumeration.start,
    Enumeration.initLoop_of_not_usable hnon fun m hm => (map.aligned m hm).1,
    Enumeration.start_lossless hnon⟩

def smallImage : KernelImage := ⟨0x100000, 0x8000, by decide, by decide⟩

/-- Two usable regions of 64 frames each, at 1 MiB and at 16 MiB. -/
def twoRegions : MemoryMap where
  entries := [⟨0x100000, 0x40000, 1⟩, ⟨0x1000000, 0x40000, 1⟩]
  aligned := by decide
  bounded := by decide
  apart := by decide

theorem not_losesNothing_twoRegions :
    (∃ e, Phys.init smallImage (fun _ => 0#32) twoRegions = .ok e) ∧
      ¬ LosesNothing smallImage (fun _ => 0#32) twoRegions := by
  -- both regions fit the root piece, so each of them is given to it
  obtain ⟨root1, available1, fresh1, hlen1, -, hfi⟩ := Enumeration.initLoop_cons_fits smallImage
    (fun _ => 0#32) ⟨0x100000, 0x40000, 1⟩ (e := Enumeration.start) (by decide) (by decide) rfl
    length_replicate (by decide) (by decide)
  obtain ⟨root2, available2, fresh2, -, hst, hse⟩ := Enumeration.initLoop_cons_fits
    smallImage (fun _ => 0#32) ⟨0x1000000, 0x40000, 1⟩
    (e := ⟨⟨[root1], available1⟩, fresh1, Enumeration.start.headers⟩) (by decide) (by decide) rfl
    hlen1 (by decide) (by decide)
  have hin : Phys.init smallImage (fun _ => 0#32) twoRegions =
      .ok ⟨⟨[root2], available2⟩, fresh2, Enumeration.start.headers⟩ := by
    rw [Phys.init, twoRegions, hfi, hse]
    rfl
  refine ⟨⟨_, hin⟩, ?_⟩
  rintro ⟨e, he, hl⟩
  obtain rfl := Except.ok.inj (hin.symm.trans he)
  obtain ⟨k, ⟨p, hp, j, -, hfr⟩, -⟩ := hl.covered ⟨0x100000, 0x40000, 1⟩
    mem_cons_self (by decide) 0 (by decide)
  obtain rfl := mem_singleton.mp (mem_of_getElem? hp)
  rw [FramePiece.frameAddr, hst] at hfr
  simp only [pageSize] at hfr
  omega

end AexKernel.Mem
