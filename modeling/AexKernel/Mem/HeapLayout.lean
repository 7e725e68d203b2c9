import AexKernel.Mem.Heap

/-! # Where slabs and blocks lie in memory

The geometry of the kernel heap: a `SlabRecord` says where descriptor, bitmap and data area of a
slab are, a `Block` says which pieces a live pointer stands for. -/

namespace AexKernel.Mem

open Library Memory Slab

/-! ## Geometry -/

/-- The ranges of `n` bytes at `a` and of `k` bytes at `b` share no byte. -/
def RangesApart (a n b k : ℕ) : Prop := a + n ≤ b ∨ b + k ≤ a

/-- A live block: the pointer that `malloc(size)` returned. -/
structure Block where
  ptr : ℕ
  size : ℕ
  deriving DecidableEq, Repr

namespace Block

def count (b : Block) : ℕ := ceilToPiece (b.size + allocSize)

def first (b : Block) : ℕ := b.ptr - allocSize

def last (b : Block) : ℕ := b.first + allocSize * b.count

/-- The pieces of the block contain the byte at `x`. -/
def Covers (b : Block) (x : ℕ) : Prop := b.first ≤ x ∧ x < b.last

def Apart (b d : Block) : Prop := b.last ≤ d.first ∨ d.last ≤ b.first

instance : Std.Symm Apart := ⟨fun _ _ h => Or.symm h⟩

/-- The header of the block says what `Slab::alloc` wrote. -/
def HeaderOk (mem : Memory) (b : Block) : Prop :=
  Slab.sanity mem b.first = b.ptr ^^^ sanityXor ∧ Slab.len mem b.first = b.count

theorem size_le (b : Block) : b.size + 16 ≤ 16 * b.count := by
  simp only [count, ceilToPiece, intCeil, allocSize]
  omega

theorem HeaderOk.congr {mem mem' : Memory} {b : Block} (h : b.HeaderOk mem)
    (ha : ∀ x, b.first ≤ x → x < b.first + 16 → mem' x = mem x) : b.HeaderOk mem' := by
  have hs : sanity mem' b.first = sanity mem b.first :=
    read_congr fun x h1 h2 => ha x h1 (by omega)
  have hl : len mem' b.first = len mem b.first :=
    read_congr fun x h1 h2 => ha x (by omega) (by omega)
  rw [HeaderOk, hs, hl]
  exact h

end Block

namespace SlabRecord

def data (s : SlabRecord) : ℕ := s.base + Slab.dataOffset s.pieces

def Apart (s t : SlabRecord) : Prop := RangesApart s.base s.total t.base t.total

instance : Std.Symm Apart := ⟨fun _ _ h => Or.symm h⟩

/-- The byte at `x` belongs to the bitmap. -/
def InBitmap (s : SlabRecord) (x : ℕ) : Prop :=
  s.base + Slab.sizeofSlab ≤ x ∧ x < s.base + Slab.sizeofSlab + s.pieces / 8

/-- A slab with whole bitmap words whose descriptor, bitmap and data fit its memory. -/
structure Wf (s : SlabRecord) : Prop where
  pos : 0 < s.base
  nonempty : 0 < s.pieces
  aligned : s.pieces % 32 = 0
  small : s.pieces < 268435456
  room : Slab.dataOffset s.pieces + 16 * s.pieces ≤ s.total
  last : s.base + s.total ≤ 18446744073709551616

/-- The descriptor in memory says what the record says. -/
structure Described (s : SlabRecord) (mem : Memory) : Prop where
  pieces : Slab.pieces mem s.base = s.pieces
  freePieces : Slab.freePieces mem s.base = s.pieces
  data : Slab.data mem s.base = s.data

def Holds (s : SlabRecord) (b : Block) (i : ℕ) : Prop :=
  b.ptr = s.data + 16 * i + 16 ∧ i + b.count ≤ s.pieces

theorem bitmap_le_data (s : SlabRecord) : s.base + 48 + s.pieces / 8 ≤ s.data := by
  simp only [data, dataOffset, ceilToAllocSize, intCeil, allocSize, sizeofSlab]
  omega

variable {s : SlabRecord}

theorem Wf.data_le (h : s.Wf) : s.data + 16 * s.pieces ≤ s.base + s.total := by
  have := h.room
  rw [data]
  omega

variable {mem mem' : Memory}

theorem Described.congr (h : s.Described mem)
    (hh : ∀ x, s.base ≤ x → x < s.base + 16 → mem' x = mem x)
    (hd : ∀ x, s.base + 40 ≤ x → x < s.base + 48 → mem' x = mem x) : s.Described mem' where
  pieces := (read_congr fun x h1 h2 => hh x h1 (by omega)).trans h.pieces
  freePieces := (read_congr fun x h1 h2 => hh x (by omega) (by omega)).trans h.freePieces
  data := (read_congr fun x h1 h2 => hd x h1 (by omega)).trans h.data

theorem bit_congr (hw : s.Wf) (h : ∀ x, s.InBitmap x → mem' x =
      mem x) {i : ℕ} (hi : i < s.pieces) :
    Slab.bit mem' s.base i = Slab.bit mem s.base i := by
  have ha := hw.aligned
  rw [bit, bit, word, word, read_congr]
  exact fun x h1 h2 => h x ⟨by omega, by omega⟩

section

variable {b : Block} {i : ℕ} (h : s.Holds b i)
include h

theorem Holds.bounds :
    b.first = s.data + 16 * i ∧ b.ptr = b.first + 16 ∧ b.last = s.data + 16 * (i + b.count) ∧
      s.data ≤ b.first ∧ b.last ≤ s.data + 16 * s.pieces := by
  obtain ⟨hp, hf⟩ := h
  simp only [Block.last, Block.first, allocSize] at *
  omega

theorem Holds.covers_iff (j : ℕ) : b.Covers (s.data + 16 * j) ↔ i ≤ j ∧ j < i + b.count := by
  obtain ⟨hf, _, hl, _⟩ := h.bounds
  rw [Block.Covers, hf, hl]
  omega

end

end SlabRecord

/-- The chain of slabs from the pointer `p` on consists of the given records. -/
def Linked (mem : Memory) : ℕ → List SlabRecord → Prop
  | p, [] => p = 0
  | p, s :: rest => p = s.base ∧ Linked mem (Slab.next mem s.base) rest

variable {p i n x size fuel ptr new : ℕ} {slabs before : List SlabRecord}

variable {mem mem' : Memory}

theorem Linked.congr (h : Linked mem p slabs)
    (hn : ∀ s ∈ slabs, next mem' s.base = next mem s.base) : Linked mem' p slabs := by
  induction slabs generalizing p with
  | nil => exact h
  | cons s rest ih =>
    refine ⟨h.1, ?_⟩
    rw [hn s List.mem_cons_self]
    exact ih h.2 fun t ht => hn t (List.mem_cons_of_mem _ ht)

variable {s t : SlabRecord}

theorem Linked.after {before after : List SlabRecord} (h : Linked mem p (before ++ s :: after)) :
    Linked mem (next mem s.base) after := by
  induction before generalizing p with
  | nil => exact h.2
  | cons t rest ih => exact ih h.2

theorem Linked.snoc (h : Linked mem p (before ++ [s]))
    (he : ∀ r ∈ before, next mem' r.base = next mem r.base)
    (hl : next mem' s.base = t.base) (hn : next mem' t.base = 0) :
    Linked mem' p (before ++ [s, t]) := by
  induction before generalizing p with
  | nil => exact ⟨h.1, hl, hn⟩
  | cons r rest ih =>
    refine ⟨h.1, ?_⟩
    rw [he r List.mem_cons_self]
    exact ih h.2 fun q hq => he q (List.mem_cons_of_mem _ hq)

/-! ## What the methods of a slab do -/

/-- What `slab->alloc` does to memory when it places the block `b` at piece `i`. -/
structure AllocEffect (s : SlabRecord) (b : Block) (i : ℕ) (mem mem' : Memory) : Prop where
  holds : s.Holds b i
  clear : ∀ j, i ≤ j → j < i + b.count → Slab.bit mem s.base j = false
  frame : ∀ x, ¬ s.InBitmap x → (x < b.first ∨ b.last ≤ x) → mem' x = mem x
  bits : ∀ j < s.pieces, Slab.bit mem' s.base j =
    if i ≤ j ∧ j < i + b.count then true else Slab.bit mem s.base j
  header : b.HeaderOk mem'
  zero : ∀ x, b.ptr ≤ x → x < b.last → mem' x = 0#8

namespace SlabRecord

theorem put_frame (hw : s.Wf) {v : Bool} (hr : i + n ≤ s.pieces) (hx : ¬ s.InBitmap x) :
    put mem s.base v i n x = mem x := by
  rw [put_eq, putBits_of_not_mem v i n s.pieces x mem hr hw.aligned]
  rw [InBitmap] at hx
  omega

theorem data_put (hw : s.Wf) {v : Bool} (hr : i + n ≤ s.pieces) :
    Slab.data (put mem s.base v i n) s.base = Slab.data mem s.base := by
  refine read_congr fun x _ h2 => put_frame hw hr ?_
  simp only [InBitmap, sizeofSlab]
  omega

theorem count_small {b : Block} (hs : b.size ≤ 67108864) : b.count < 4294967296 := by
  simp only [Block.count, ceilToPiece, intCeil, allocSize]
  omega

theorem allocEffect (hd : s.Described mem) (hw : s.Wf) (hp : size ≠ 0)
    (hr : FreeRun mem s.base (Block.count ⟨s.data + 16 * i + 16, size⟩) i) :
    AllocEffect s ⟨s.data + 16 * i + 16, size⟩ i mem
      ((((Slab.mark mem s.base i (Block.count ⟨s.data + 16 * i + 16, size⟩)).fill
          (s.data + 16 * i) (16 * Block.count ⟨s.data + 16 * i + 16, size⟩) 0#8).write
        (s.data + 16 * i + 8) 4 (Block.count ⟨s.data + 16 * i + 16, size⟩)).write
        (s.data + 16 * i) 8 ((s.data + 16 * i + 16) ^^^ sanityXor)) := by
  set b : Block := ⟨s.data + 16 * i + 16, size⟩ with hb
  obtain ⟨_, hf, hc⟩ := hr
  rw [Int.toNat_natCast, hd.pieces] at hf
  rw [Int.toNat_natCast] at hc
  have hh : s.Holds b i := ⟨rfl, hf⟩
  obtain ⟨hi, ht, hl, hlo, hhi⟩ := hh.bounds
  have hbit := s.bitmap_le_data
  have hro := hw.data_le
  have he := hw.last
  have hs := hw.small
  have hco := b.size_le
  have ha : s.data + 16 * i + 16 < 2 ^ 64 := by
    have hp' : b.size ≠ 0 := hp
    omega
  have ho : (s.data + 16 * i + 16) ^^^ sanityXor < 256 ^ 8 := by
    rw [show 256 ^ 8 = 2 ^ 64 by norm_num]
    exact Nat.xor_lt_two_pow ha (by decide)
  have hwo : b.count < 256 ^ 4 := lt_of_lt_of_le (show b.count < 268435456 by omega) (by norm_num)
  refine ⟨hh, hc, ?_, ?_, ⟨?_, ?_⟩, ?_⟩
  · intro x hx hu
    rw [write_of_not_mem (by omega), write_of_not_mem (by omega), fill_of_not_mem (by omega)]
    exact put_frame hw hf hx
  · intro j hj
    have hm : bit (mark mem s.base i b.count) s.base j =
        if i ≤ j ∧ j < i + b.count then true else bit mem s.base j := by
      rw [mark, put_eq, bit_putBits]
    refine Eq.trans (SlabRecord.bit_congr hw (fun x hx => ?_) hj) hm
    simp only [InBitmap, sizeofSlab] at hx
    rw [write_of_not_mem (by omega), write_of_not_mem (by omega), fill_of_not_mem (by omega)]
  · rw [sanity, hi, read_write ho]
  · rw [len, hi, read_write_apart (by omega), read_write hwo]
  · intro x h1 h2
    rw [write_of_not_mem (by omega), write_of_not_mem (by omega), fill_of_mem (by omega) (by omega)]

/-- **`slab->alloc`** fails without a trace or places a block on a free run. -/
theorem alloc_cases {h h' : Heap} (hd : s.Described h.mem) (hw : s.Wf) (hp : size ≠ 0)
    (hs : size ≤ 67108864) (ha : alloc fuel h s.base size = .ok (ptr, h')) :
    (ptr = 0 ∧ h' = h) ∨ ∃ i counter mem', AllocEffect s ⟨ptr, size⟩ i h.mem mem' ∧
      h' = { h with mem := mem', heapFree := counter } := by
  have hm : ceilToPiece (size + allocSize) % 4294967296 = Block.count ⟨0, size⟩ :=
    Nat.mod_eq_of_lt (count_small (b := ⟨0, size⟩) hs)
  rw [alloc, if_neg hp] at ha
  simp only [hm] at ha
  cases hf : findFree h.mem s.base fuel (Block.count ⟨0, size⟩) with
  | none => rw [hf] at ha; cases ha
  | some start =>
    rw [hf] at ha
    simp only at ha
    by_cases hn : start = -1
    · rw [if_pos hn] at ha
      cases ha
      exact Or.inl ⟨rfl, rfl⟩
    rw [if_neg hn] at ha
    have hpi := hd.pieces
    have hsm := hw.small
    have hr := (findFree_spec (by rw [hpi]; exact hw.aligned)
      (by rw [hpi]; omega) hf).resolve_left hn
    obtain ⟨i, rfl⟩ := Int.eq_ofNat_of_zero_le hr.1
    have hi := hr.2.1
    rw [Int.toNat_natCast, hpi] at hi
    have hma : Slab.data (mark h.mem s.base i (Block.count ⟨0, size⟩)) s.base = s.data :=
      (data_put hw hi).trans hd.data
    have hadd : s.data + i * allocSize = s.data + 16 * i := by
      rw [allocSize, Nat.mul_comm]
    rw [Int.toNat_natCast, Nat.mod_eq_of_lt (show i < 4294967296 by omega), hma, hadd]
      at ha
    cases ha
    refine Or.inr ⟨i, _, _, ?_, rfl⟩
    have he := allocEffect hd hw hp hr
    rw [Nat.mul_comm 16 (Block.count _)] at he
    exact he

/-- What `slab->free` does to memory when it releases the block `b` at piece `i`. -/
structure FreeEffect (s : SlabRecord) (b : Block) (i : ℕ) (mem mem' : Memory) : Prop where
  frame : ∀ x, ¬ s.InBitmap x → (x < b.first ∨ b.last ≤ x) → mem' x = mem x
  bits : ∀ j < s.pieces, Slab.bit mem' s.base j =
    if i ≤ j ∧ j < i + b.count then false else Slab.bit mem s.base j

/-- **`slab->free`** of a block. -/
theorem free_ok {h : Heap} {b : Block} (hd : s.Described h.mem) (hw : s.Wf) (ho : s.Holds b i)
    (hh : b.HeaderOk h.mem) :
    ∃ counter mem', FreeEffect s b i h.mem mem' ∧
      free h s.base b.ptr = .ok { h with mem := mem', heapFree := counter } := by
  obtain ⟨hi, hp, ha, hlo, hhi⟩ := ho.bounds
  have hf := ho.2
  have hb := s.bitmap_le_data
  have hs := hw.small
  have hbl : b.ptr - allocSize = b.first := rfl
  have hn : (b.first - Slab.data h.mem s.base) % 4294967296 / allocSize = i := by
    rw [hd.data, hi, Nat.add_sub_cancel_left, Nat.mod_eq_of_lt (by omega), allocSize,
      Nat.mul_div_cancel_left _ (by decide)]
  -- `unmark` leaves the header alone, so its length is read back unchanged
  have hl : len (unmark h.mem s.base i b.count) b.first = b.count := by
    refine (Memory.read_congr fun x h1 _ => put_frame hw hf ?_).trans hh.2
    simp only [InBitmap, sizeofSlab]
    omega
  have hy : b.count * allocSize % 4294967296 = 16 * b.count := by
    rw [allocSize, Nat.mod_eq_of_lt (by omega), Nat.mul_comm]
  refine ⟨(h.heapFree + b.count * allocSize) % 18446744073709551616,
    (unmark h.mem s.base i b.count).fill b.first (16 * b.count) 0x5A#8, ⟨?_, ?_⟩, ?_⟩
  · intro x hx hu
    rw [Memory.fill_of_not_mem (by omega)]
    exact put_frame hw hf hx
  · intro j hj
    have hun : bit (unmark h.mem s.base i b.count) s.base j =
        if i ≤ j ∧ j < i + b.count then false else bit h.mem s.base j := by
      rw [unmark, put_eq, bit_putBits]
    refine Eq.trans (bit_congr hw (fun x hx => Memory.fill_of_not_mem ?_) hj) hun
    simp only [InBitmap, sizeofSlab] at hx
    omega
  · rw [free]
    simp only [hbl, hh.1, hh.2, hn, hl, hy, ne_eq, not_true_eq_false, if_false]

end SlabRecord

/-- What `Slab::createFromVMem` makes of fresh memory. -/
structure CreateEffect (t : SlabRecord) (mem mem' : Memory) : Prop where
  wf : t.Wf
  described : t.Described mem'
  next : Slab.next mem' t.base = 0
  clear : ∀ j < t.pieces, Slab.bit mem' t.base j = false
  frame : ∀ x, (x < t.base ∨ t.base + t.total ≤ x) → mem' x = mem x

theorem initSlab_effect (hw : t.Wf) (mem : Memory) :
    CreateEffect t mem (Slab.initSlab mem t.base t.pieces) := by
  have hr := hw.data_le
  have hl := hw.last
  have ha := hw.aligned
  have hn := hw.nonempty
  have ho : t.base + dataOffset t.pieces = t.data := rfl
  refine ⟨hw, ⟨?_, ?_, ?_⟩, ?_, ?_, ?_⟩
  · rw [pieces, initSlab, read_fill_apart (by rw [sizeofSlab]; omega),
      read_write_apart (by omega), read_write_apart (by omega),
      read_write_apart (by omega), read_write (by norm_num; omega)]
  · rw [freePieces, initSlab, read_fill_apart (by rw [sizeofSlab]; omega),
      read_write_apart (by omega), read_write_apart (by omega),
      read_write (by norm_num; omega)]
  · rw [data, initSlab, read_fill_apart (by rw [sizeofSlab]; omega),
      read_write_apart (by omega), ho, read_write (by norm_num; omega)]
  · rw [next, initSlab, read_fill_apart (by rw [sizeofSlab]; omega), read_write (by norm_num)]
  · intro j hj
    have hz : word (initSlab mem t.base t.pieces) t.base (j / 32) = 0#32 := by
      rw [word, read_eq_zero]
      exact fun x h1 h2 => fill_of_mem (by omega) (by omega)
    rw [bit, hz, BitVec.getLsbD_zero]
  · intro x hx
    rw [initSlab, fill_of_not_mem (by rw [sizeofSlab]; omega),
      write_of_not_mem (by omega), write_of_not_mem (by omega),
      write_of_not_mem (by omega), write_of_not_mem (by omega)]

/-- **`Slab::createFromVMem`** turns a fresh answer into an empty slab. -/
theorem createFromVMem_ok {h h' : Heap} {answer : VMem} (hl : 0x100000 ≤ size)
    (hs : size ≤ 134217728) (hc : Slab.createFromVMem h size answer = .ok (new, h')) :
    ∃ t, t.base = new ∧ CreateEffect t h.mem h'.mem ∧ h'.slabs = h.slabs ++ [t] ∧
      h'.rootSlab = h.rootSlab ∧ ∀ s ∈ h.slabs, s.Apart t := by
  rw [createFromVMem] at hc
  have hb : 0 < intFloor (size / allocSize) 32 ∧ intFloor (size / allocSize) 32 % 32 = 0 ∧
      16 * intFloor (size / allocSize) 32 ≤ size := by
    simp only [intFloor, allocSize]
    omega
  generalize intFloor (size / allocSize) 32 = pieces at hc hb
  split at hc
  case isFalse => cases hc
  case isTrue hr =>
    cases hc
    obtain ⟨hn, he, ha⟩ := hr
    set t : SlabRecord := ⟨answer.addr, pieces, size + dataOffset pieces⟩
    have hw : t.Wf := by
      refine ⟨hn, hb.1, hb.2.1, ?_, ?_, he⟩
      · change pieces < 268435456
        omega
      · change dataOffset pieces + 16 * pieces ≤ size + dataOffset pieces
        omega
    have hf := initSlab_effect hw (h.mem.overlay t.base t.total answer.contents)
    refine ⟨t, rfl, { hf with frame := fun x hx => ?_ }, rfl, rfl, ha⟩
    exact (hf.frame x hx).trans (overlay_of_not_mem hx)

end AexKernel.Mem
