import AexKernel.Library.Run
import AexKernel.Mem.HeapLayout

/-! # Heap blocks do not interfere

Runs of `Heap::malloc` and `Heap::free` in which every `free` gets a live pointer, and in which the
owner of a block may write to it at any time. -/

namespace AexKernel.Mem

open Library Slab Block Or
open SlabRecord (InBitmap bit_congr)

/-! ## Configurations -/

/-- The heap and the blocks handed out and not yet freed. -/
structure HeapConfig where
  heap : Heap
  live : List Block

/-- A call into the heap, or a byte that the owner of a block writes to it. -/
inductive HeapCall where
  | malloc (fuel : ℕ) (answers : List VMem) (size : ℕ)
  | free (fuel : ℕ) (b : Block)
  | store (b : Block) (addr : ℕ) (value : BitVec 8)

namespace HeapConfig

def step (c : HeapConfig) : HeapCall → Except HeapStop HeapConfig
  | .malloc fuel answers size => do
    let (ptr, heap) ← c.heap.malloc fuel answers size
    return ⟨heap, if ptr = 0 then c.live else ⟨ptr, size⟩ :: c.live⟩
  | .free fuel b => do
    let heap ← c.heap.free fuel b.ptr
    return ⟨heap, c.live.erase b⟩
  | .store _ addr value => .ok ⟨{ c.heap with mem := c.heap.mem.fill addr 1 value }, c.live⟩

/-- Only live blocks are freed, and stores stay inside a live block. -/
def Legal (c : HeapConfig) : HeapCall → Prop
  | .malloc _ _ _ => True
  | .free _ b => b ∈ c.live
  | .store b addr _ => b ∈ c.live ∧ b.ptr ≤ addr ∧ addr < b.ptr + b.size

/-- **The representation invariant**: what memory looks like when the given blocks are live. -/
structure Rep (c : HeapConfig) : Prop where
  linked : Linked c.heap.mem c.heap.rootSlab c.heap.slabs
  nonempty : c.heap.slabs ≠ []
  described : ∀ s ∈ c.heap.slabs, s.Described c.heap.mem
  wf : ∀ s ∈ c.heap.slabs, s.Wf
  apart : c.heap.slabs.Pairwise SlabRecord.Apart
  placed : ∀ b ∈ c.live, ∃ s ∈ c.heap.slabs, ∃ i, s.Holds b i
  header : ∀ b ∈ c.live, b.HeaderOk c.heap.mem
  disjoint : c.live.Pairwise Block.Apart
  bits : ∀ s ∈ c.heap.slabs, ∀ i < s.pieces,
    Slab.bit c.heap.mem s.base i = true ↔ ∃ b ∈ c.live, b.Covers (s.data + 16 * i)

def Footprint (c : HeapConfig) (x : ℕ) : Prop := ∃ b ∈ c.live, b.Covers x

namespace Rep

variable {c : HeapConfig} {s t : SlabRecord}

theorem eq_or_apart (h : c.Rep) (hs : s ∈ c.heap.slabs) (ht : t ∈ c.heap.slabs) :
    s = t ∨ s.Apart t := by
  by_cases he : s = t
  · exact inl he
  · exact inr (h.apart.forall hs ht he)

variable {b d : Block}

theorem bounds (h : c.Rep) (hb : b ∈ c.live) :
    ∃ s ∈ c.heap.slabs, b.ptr = b.first + 16 ∧ s.data ≤ b.first ∧
      b.last ≤ s.data + 16 * s.pieces := by
  obtain ⟨s, hs, i, hh⟩ := h.placed b hb
  obtain ⟨_, hp, _, hl, hi⟩ := hh.bounds
  exact ⟨s, hs, hp, hl, hi⟩

variable {x counter i n : ℕ}

section

variable (h : c.Rep)
include h

theorem covers_apart (hb : b ∈ c.live) (hx : b.Covers x) (hs : s ∈ c.heap.slabs) :
    x < s.base ∨ s.base + 48 + s.pieces / 8 ≤ x := by
  obtain ⟨t, ht, _, hl, hh⟩ := h.bounds hb
  have hd := t.bitmap_le_data
  have hr := (h.wf t ht).data_le
  have hr' := (h.wf s hs).data_le
  have hd' := s.bitmap_le_data
  obtain ⟨h1, h2⟩ := hx
  rcases h.eq_or_apart hs ht with rfl | ha | ha <;> omega

variable {mem : Memory}

section

variable (hs : s ∈ c.heap.slabs)
include hs

theorem update {live : List Block} (hr : i + n ≤ s.pieces)
    (hf : ∀ x, ¬ s.InBitmap x → (x < s.data + 16 * i ∨ s.data + 16 * (i + n) ≤ x) → mem x =
      c.heap.mem x)
    (hl : ∀ b ∈ live, (b ∈ c.live ∧ (b.last ≤ s.data + 16 * i ∨
      s.data + 16 * (i + n) ≤ b.first)) ∨ (s.Holds b i ∧ b.count = n ∧ b.HeaderOk mem))
    (hdi : live.Pairwise Block.Apart)
    (hi : ∀ j < s.pieces, Slab.bit mem s.base j = true ↔ ∃ b ∈ live, b.Covers (s.data + 16 * j))
    (hk : ∀ b ∈ c.live, b ∈ live ∨ s.Holds b i) :
    Rep ⟨{ c.heap with mem := mem, heapFree := counter }, live⟩ := by
  have hbit := s.bitmap_le_data
  have hro := (h.wf s hs).data_le
  -- bytes of descriptors and of other slabs are outside the bitmap of `s` and the run
  have hd : ∀ t ∈ c.heap.slabs, ∀ x, t.base ≤ x → x < t.base + 48 → mem x = c.heap.mem x := by
    intro t ht x h1 h2
    refine hf x ?_ ?_
    · simp only [InBitmap, sizeofSlab]
      rcases h.eq_or_apart hs ht with rfl | ha | ha <;> omega
    · rcases h.eq_or_apart hs ht with rfl | ha | ha <;> omega
  refine ⟨?_, h.nonempty, ?_, h.wf, h.apart, ?_, ?_, hdi, ?_⟩
  · refine h.linked.congr fun t ht => Memory.read_congr fun x h1 h2 => ?_
    exact hd t ht x (by omega) (by omega)
  · intro t ht
    exact (h.described t ht).congr (fun x h1 h2 => hd t ht x h1 (by omega))
      fun x h1 h2 => hd t ht x (by omega) h2
  · intro b hb
    rcases hl b hb with ⟨hold, _⟩ | ⟨hh, _⟩
    · exact h.placed b hold
    · exact ⟨s, hs, i, hh⟩
  · intro b hb
    rcases hl b hb with ⟨hold, ho⟩ | ⟨_, _, hhe⟩
    · refine (h.header b hold).congr fun x h1 h2 => hf x ?_ ?_
      · have hco := b.size_le
        have hc : b.Covers x := ⟨h1, by rw [last, allocSize]; omega⟩
        have ha := h.covers_apart hold hc hs
        simp only [InBitmap, sizeofSlab]
        omega
      · have hco := b.size_le
        rw [last, allocSize] at ho
        omega
    · exact hhe
  · intro t ht j hj
    by_cases he : t = s
    · subst he
      exact hi j hj
    have ha : s.Apart t := (h.eq_or_apart hs ht).resolve_left fun h => he h.symm
    have hb' := t.bitmap_le_data
    have hr' := (h.wf t ht).data_le
    -- another slab: its bitmap is untouched, and no block of the run covers its pieces
    have hsa : bit mem t.base j = bit c.heap.mem t.base j := by
      refine bit_congr (h.wf t ht) (fun x hx => hf x ?_ ?_) hj
      · simp only [InBitmap, sizeofSlab] at hx ⊢
        rcases ha with ha | ha <;> omega
      · simp only [InBitmap, sizeofSlab] at hx
        rcases ha with ha | ha <;> omega
    have hn : ∀ b, s.Holds b i → ¬ b.Covers (t.data + 16 * j) := by
      intro b hh hc
      obtain ⟨_, _, _, hlo, hhi⟩ := hh.bounds
      obtain ⟨h1, h2⟩ := hc
      rcases ha with ha | ha <;> omega
    change bit mem t.base j = true ↔ _
    rw [hsa, h.bits t ht j hj]
    constructor
    · rintro ⟨b, hb, hc⟩
      exact ⟨b, (hk b hb).resolve_right fun hh => hn b hh hc, hc⟩
    rintro ⟨b, hb, hc⟩
    rcases hl b hb with ⟨hold, _⟩ | ⟨hh, _⟩
    · exact ⟨b, hold, hc⟩
    · exact absurd hc (hn b hh)

theorem off_clear_run (hn : 0 < n) (hr : i + n ≤ s.pieces)
    (hc : ∀ j, i ≤ j → j < i + n → Slab.bit c.heap.mem s.base j = false) (hd : d ∈ c.live) :
    d.last ≤ s.data + 16 * i ∨ s.data + 16 * (i + n) ≤ d.first := by
  obtain ⟨t, ht, k, hh⟩ := h.placed d hd
  obtain ⟨hf, _, hl, ho, hhi⟩ := hh.bounds
  have hco := d.size_le
  rcases h.eq_or_apart hs ht with rfl | ha
  · -- in one slab the runs do not meet, or a clear bit would belong to `d`
    by_contra hm
    have hb := (h.bits s hs (max i k) (by omega)).mpr ⟨d, hd, (hh.covers_iff _).mpr (by omega)⟩
    rw [hc _ (by omega) (by omega)] at hb
    cases hb
  have hro := (h.wf s hs).data_le
  have hr' := (h.wf t ht).data_le
  have hi := s.bitmap_le_data
  have hb' := t.bitmap_le_data
  rcases ha with ha | ha <;> omega

/-- **An allocation preserves the invariant** and leaves the pieces of live blocks alone. -/
theorem alloc (he : AllocEffect s b i c.heap.mem mem) :
    Rep ⟨{ c.heap with mem := mem, heapFree := counter }, b :: c.live⟩ ∧
      ∀ x, c.Footprint x → mem x = c.heap.mem x := by
  have hc := b.size_le
  obtain ⟨hfi, _, hl, _⟩ := he.holds.bounds
  have ho : ∀ d ∈ c.live, d.last ≤ s.data + 16 * i ∨ s.data + 16 * (i + b.count) ≤ d.first :=
    fun d hd => h.off_clear_run hs (by omega) he.holds.2 he.clear hd
  have hf : ∀ x, ¬ s.InBitmap x →
      (x < s.data + 16 * i ∨ s.data + 16 * (i + b.count) ≤ x) → mem x = c.heap.mem x :=
    fun x hx hu => he.frame x hx (by omega)
  refine ⟨h.update hs he.holds.2 hf ?_ ?_ ?_ ?_, ?_⟩
  · intro d hd
    rcases List.mem_cons.mp hd with rfl | hd'
    · exact inr ⟨he.holds, rfl, he.header⟩
    · exact inl ⟨hd', ho d hd'⟩
  · refine List.pairwise_cons.mpr ⟨fun d hd => ?_, h.disjoint⟩
    rw [Block.Apart, hfi, hl]
    exact (ho d hd).symm
  · intro j hj
    rw [he.bits j hj, List.exists_mem_cons_iff, he.holds.covers_iff j]
    by_cases hi : i ≤ j ∧ j < i + b.count
    · rw [if_pos hi]
      exact iff_of_true rfl (inl hi)
    · rw [if_neg hi, h.bits s hs j hj]
      exact (or_iff_right hi).symm
  · exact fun d hd => inl (List.mem_cons_of_mem _ hd)
  · rintro x ⟨d, hd, hx⟩
    refine hf x ?_ ?_
    · have := h.covers_apart hd hx hs
      simp only [InBitmap, sizeofSlab]
      omega
    · have := ho d hd
      obtain ⟨h1, h2⟩ := hx
      omega

end

theorem nodup : c.live.Nodup := by
  refine h.disjoint.imp ?_
  rintro b d ha rfl
  have hc := b.size_le
  simp only [Block.Apart, last, allocSize] at ha
  omega

theorem free (hs : s ∈ c.heap.slabs) (hb : b ∈ c.live) (hh : s.Holds b i)
    (hf : SlabRecord.FreeEffect s b i c.heap.mem mem) :
    Rep ⟨{ c.heap with mem := mem, heapFree := counter }, c.live.erase b⟩ ∧
      ∀ d ∈ c.live, d ≠ b → ∀ x, d.Covers x → mem x = c.heap.mem x := by
  obtain ⟨hfi, _, hl, _⟩ := hh.bounds
  have he : ∀ d, d ∈ c.live.erase b ↔ d ≠ b ∧ d ∈ c.live := fun d => h.nodup.mem_erase_iff
  have ho : ∀ d ∈ c.live, d ≠ b →
      d.last ≤ s.data + 16 * i ∨ s.data + 16 * (i + b.count) ≤ d.first := by
    intro d hd hn
    have ha := h.disjoint.forall hd hb hn
    rwa [Block.Apart, hfi, hl] at ha
  have hr : ∀ x, ¬ s.InBitmap x →
      (x < s.data + 16 * i ∨ s.data + 16 * (i + b.count) ≤ x) → mem x = c.heap.mem x :=
    fun x hx hu => hf.frame x hx (by omega)
  refine ⟨h.update hs hh.2 hr ?_ ?_ ?_ ?_, ?_⟩
  · intro d hd
    obtain ⟨hn, hd'⟩ := (he d).mp hd
    exact inl ⟨hd', ho d hd' hn⟩
  · exact h.disjoint.sublist List.erase_sublist
  · intro j hj
    rw [hf.bits j hj]
    by_cases hi : i ≤ j ∧ j < i + b.count
    · rw [if_pos hi]
      refine iff_of_false (by decide) ?_
      rintro ⟨d, hd, h1, h2⟩
      obtain ⟨hn, hd'⟩ := (he d).mp hd
      have := ho d hd' hn
      omega
    rw [if_neg hi, h.bits s hs j hj]
    constructor
    · rintro ⟨d, hd, hc⟩
      refine ⟨d, (he d).mpr ⟨?_, hd⟩, hc⟩
      rintro rfl
      exact hi ((hh.covers_iff j).mp hc)
    · rintro ⟨d, hd, hc⟩
      exact ⟨d, ((he d).mp hd).2, hc⟩
  · intro d hd
    by_cases hdb : d = b
    · subst hdb
      exact inr hh
    · exact inl ((he d).mpr ⟨hdb, hd⟩)
  · intro d hd hn x hx
    refine hr x ?_ ?_
    · have := h.covers_apart hd hx hs
      simp only [InBitmap, sizeofSlab]
      omega
    · have := ho d hd hn
      obtain ⟨h1, h2⟩ := hx
      omega

theorem store (hb : b ∈ c.live) (ho : b.ptr ≤ x) (hhi : x < b.ptr + b.size) (v : BitVec 8) :
    Rep ⟨{ c.heap with mem := c.heap.mem.fill x 1 v }, c.live⟩ := by
  obtain ⟨s, hs, i, hh⟩ := h.placed b hb
  obtain ⟨hf, ht, hl, hst, _⟩ := hh.bounds
  have hc := b.size_le
  have hi := s.bitmap_le_data
  have ha : ∀ y, y ≠ x → c.heap.mem.fill x 1 v y = c.heap.mem y :=
    fun y hy => Memory.fill_of_not_mem (by omega)
  refine h.update hs hh.2 (fun y _ hy => ha y (by omega)) ?_ h.disjoint ?_ fun d hd => inl hd
  · intro d hd
    by_cases hdb : d = b
    · subst hdb
      exact inr ⟨hh, rfl, (h.header d hd).congr fun y _ hy => ha y (by omega)⟩
    have hp := h.disjoint.forall hd hb hdb
    rw [Block.Apart, hf, hl] at hp
    exact inl ⟨hd, hp⟩
  · intro j hj
    rw [bit_congr (h.wf s hs) (fun y hy => ha y ?_) hj]
    · exact h.bits s hs j hj
    simp only [InBitmap, sizeofSlab] at hy
    omega

/-- **Growing the heap preserves the invariant**: a new slab is appended to the chain. -/
theorem grow {before : List SlabRecord} {heap : Heap} (hsl : c.heap.slabs = before ++ [s])
    (he : CreateEffect t c.heap.mem heap.mem) (hs' : heap.slabs = c.heap.slabs ++ [t])
    (ho : heap.rootSlab = c.heap.rootSlab) (ha : ∀ r ∈ c.heap.slabs, r.Apart t) :
    Rep ⟨{ heap with mem := heap.mem.write (s.base + 16) 8 t.base }, c.live⟩ ∧
      ∀ x, c.Footprint x → heap.mem.write (s.base + 16) 8 t.base x = c.heap.mem x := by
  set mem := heap.mem.write (s.base + 16) 8 t.base with hmem
  have hs : s ∈ c.heap.slabs := by simp [hsl]
  have hm : ∀ r, r ∈ heap.slabs ↔ r ∈ c.heap.slabs ∨ r = t := by simp [hs']
  have hro := (h.wf s hs).data_le
  have ht := s.bitmap_le_data
  have hn : s.Apart t := ha s hs
  have htr := he.wf.data_le
  have htb := t.bitmap_le_data
  -- outside the new slab only the `next` field of the last slab changes
  have hold : ∀ r ∈ c.heap.slabs, ∀ x, r.base ≤ x → x < r.base + r.total →
      (x < s.base + 16 ∨ s.base + 24 ≤ x) → mem x = c.heap.mem x := by
    intro r hr x h1 h2 hx
    rw [hmem, Memory.write_of_not_mem (by omega)]
    refine he.frame x ?_
    rcases ha r hr with hl | hl <;> omega
  have hi : ∀ x, t.base ≤ x → x < t.base + t.total → mem x = heap.mem x := by
    intro x h1 h2
    rw [hmem, Memory.write_of_not_mem]
    rcases hn with hl | hl <;> omega
  have hd : ∀ r ∈ c.heap.slabs, r.Described mem := by
    intro r hr
    have hr1 := (h.wf r hr).data_le
    have hr2 := r.bitmap_le_data
    refine (h.described r hr).congr (fun x h1 h2 => hold r hr x h1 (by omega) ?_)
      fun x h1 h2 => hold r hr x (by omega) (by omega) ?_
    all_goals rcases h.eq_or_apart hs hr with rfl | hl | hl <;> omega
  have hf : ∀ x, c.Footprint x → mem x = c.heap.mem x := by
    rintro x ⟨b, hb, hx⟩
    obtain ⟨r, hr, _, hlo, hh⟩ := h.bounds hb
    have hr1 := (h.wf r hr).data_le
    have hr2 := r.bitmap_le_data
    have := h.covers_apart hb hx hs
    obtain ⟨h1, h2⟩ := hx
    exact hold r hr x (by omega) (by omega) (by omega)
  refine ⟨⟨?_, ?_, ?_, ?_, ?_, ?_, ?_, h.disjoint, ?_⟩, hf⟩
  · change Linked mem heap.rootSlab heap.slabs
    have hli := h.linked
    rw [hsl] at hli
    rw [ho, hs', hsl, List.append_assoc]
    refine hli.snoc (fun r hr => ?_) ?_ ?_
    · -- the other slabs keep their `next` field
      have hr' : r ∈ c.heap.slabs := by simp [hsl, hr]
      have hr1 := (h.wf r hr').data_le
      have hr2 := r.bitmap_le_data
      have ha' : r.Apart s := by
        have hp := h.apart
        rw [hsl] at hp
        exact (List.pairwise_append.mp hp).2.2 r hr s (by simp)
      refine Memory.read_congr fun x h1 h2 => hold r hr' x (by omega) (by omega) ?_
      rcases ha' with hl | hl <;> omega
    · exact Memory.read_write (by have := he.wf.last; norm_num; omega)
    · refine (Memory.read_congr fun x h1 h2 => ?_).trans he.next
      exact hi x (by omega) (by omega)
  · simp [hs']
  · intro r hr
    rcases (hm r).mp hr with hr' | rfl
    · exact hd r hr'
    exact he.described.congr (fun x h1 h2 => hi x h1 (by omega))
      fun x h1 h2 => hi x (by omega) (by omega)
  · intro r hr
    rcases (hm r).mp hr with hr' | rfl
    · exact h.wf r hr'
    · exact he.wf
  · change heap.slabs.Pairwise _
    rw [hs', List.pairwise_append]
    exact ⟨h.apart, List.pairwise_singleton _ _, fun r hr q hq => by
      rw [List.mem_singleton.mp hq]; exact ha r hr⟩
  · intro b hb
    obtain ⟨r, hr, i, hho⟩ := h.placed b hb
    exact ⟨r, (hm r).mpr (inl hr), i, hho⟩
  · intro b hb
    have hc := b.size_le
    exact (h.header b hb).congr fun x h1 h2 =>
      hf x ⟨b, hb, h1, by rw [last, allocSize]; omega⟩
  · intro r hr j hj
    change bit mem r.base j = true ↔ _
    rcases (hm r).mp hr with hr' | rfl
    · rw [bit_congr (h.wf r hr') (fun x hx => ?_) hj, h.bits r hr' j hj]
      have hr1 := (h.wf r hr').data_le
      have hr2 := r.bitmap_le_data
      simp only [InBitmap, sizeofSlab] at hx
      refine hold r hr' x (by omega) (by omega) ?_
      rcases h.eq_or_apart hs hr' with rfl | hl | hl <;> omega
    -- no block covers a piece of the new slab
    rw [bit_congr he.wf (fun x hx => ?_) hj, he.clear j hj]
    · refine iff_of_false (by decide) ?_
      rintro ⟨b, hb, h1, h2⟩
      obtain ⟨q, hq, _, hlo, hh⟩ := h.bounds hb
      have hq1 := (h.wf q hq).data_le
      have hq2 := q.bitmap_le_data
      rcases ha q hq with hl | hl <;> omega
    · simp only [InBitmap, sizeofSlab] at hx
      exact hi x (by omega) (by omega)

end

end Rep

/-! ## What the calls do -/

variable {c : HeapConfig} {fuel size ptr p slab : ℕ} {heap : Heap} {answers : List VMem}

/-- **`malloc`'s walk** along the chain ends with a new live block. -/
theorem mallocLoop_ok (before after : List SlabRecord) (s : SlabRecord) (h : c.Rep)
    (hsl : c.heap.slabs = before ++ s :: after) (ho : size ≠ 0) (hsi : size ≤ 67108864)
    (hl : Heap.mallocLoop fuel answers c.heap s.base size = .ok (ptr, heap)) :
    ptr ≠ 0 ∧ Rep ⟨heap, ⟨ptr, size⟩ :: c.live⟩ ∧
      (∀ x, ptr ≤ x → x < ptr + size → heap.mem x = 0#8) ∧
      ∀ x, c.Footprint x → heap.mem x = c.heap.mem x := by
  induction fuel generalizing answers c before after s with
  | zero => cases hl
  | succ fuel ih =>
    have hs : s ∈ c.heap.slabs := by simp [hsl]
    rw [Heap.mallocLoop] at hl
    obtain ⟨⟨addr, heap1⟩, ha, hl⟩ := bind_eq_ok.mp hl
    dsimp only at hl
    rcases SlabRecord.alloc_cases (h.described s hs) (h.wf s hs) ho hsi ha with
      ⟨rfl, rfl⟩ | ⟨i, counter, mem, he, rfl⟩
    · rw [if_neg (by simp)] at hl
      have hi := h.linked
      rw [hsl] at hi
      have hf := hi.after
      by_cases hn : next c.heap.mem s.base = 0
      · -- the last slab of the chain: a new one is appended and tried next
        rw [if_pos hn] at hl
        have hla : after = [] := by
          cases after with
          | nil => rfl
          | cons t rest =>
            have hp' := (h.wf t (by simp [hsl])).pos
            have hb := hf.1
            omega
        subst hla
        cases answers with
        | nil => cases hl
        | cons answer answers =>
          obtain ⟨⟨new, heap2⟩, hc, hl⟩ := bind_eq_ok.mp hl
          obtain ⟨t, rfl, he, hs', hro, hap⟩ :=
            createFromVMem_ok (by omega) (by omega) hc
          obtain ⟨hr, hfr⟩ := h.grow hsl he hs' hro hap
          have hw : next (heap2.mem.write (s.base + 16) 8 t.base) s.base = t.base :=
            Memory.read_write (by
              have := he.wf.last
              have := he.wf.data_le
              have := t.bitmap_le_data
              norm_num
              omega)
          simp only [hw] at hl
          rw [if_pos (Nat.pos_iff_ne_zero.mp he.wf.pos)] at hl
          obtain ⟨hp, hr', hz, hf'⟩ := ih (before ++ [s]) [] t hr (by simp [hs', hsl]) hl
          exact ⟨hp, hr', hz, fun x hx => (hf' x hx).trans (hfr x hx)⟩
      · rw [if_neg hn] at hl
        cases after with
        | nil => exact absurd hf hn
        | cons t rest =>
          rw [hf.1] at hl
          exact ih (before ++ [s]) rest t h (by simp [hsl]) hl
    · have hp : addr ≠ 0 := by
        have := he.holds.1
        simp only at this
        omega
      rw [if_pos hp] at hl
      obtain ⟨rfl, rfl⟩ := Prod.mk.inj (Except.ok.inj hl)
      obtain ⟨hr, hfr⟩ := h.alloc hs he
      refine ⟨hp, hr, fun x h1 h2 => he.zero x h1 ?_, hfr⟩
      have hco := size_le ⟨addr, size⟩
      obtain ⟨_, hfi, _⟩ := he.holds.bounds
      simp only [last, allocSize] at hco hfi ⊢
      omega

variable {s t : SlabRecord} {b d : Block}

theorem Rep.owns_iff (h : c.Rep) (hs : s ∈ c.heap.slabs) (ht : t ∈ c.heap.slabs) {i : ℕ}
    (hh : s.Holds b i) : Slab.owns c.heap.mem t.base b.ptr = true ↔ t = s := by
  obtain ⟨_, hp, hl, ho, hi⟩ := hh.bounds
  have hc := b.size_le
  have hb := s.bitmap_le_data
  have hr := (h.wf s hs).data_le
  have hb' := t.bitmap_le_data
  have hr' := (h.wf t ht).data_le
  rw [owns, (h.described t ht).data, (h.described t ht).pieces, allocSize, Bool.and_eq_true,
    decide_eq_true_eq, decide_eq_true_eq]
  constructor
  · rintro ⟨h1, h2⟩
    by_contra hn
    rcases h.apart.forall ht hs hn with ha | ha <;> omega
  · rintro rfl
    omega

/-- **`free`'s walk** along the chain reaches the slab that holds the block, with enough fuel. -/
theorem freeLoop_eq (h : c.Rep) {i : ℕ} (hs : s ∈ c.heap.slabs) (hh : s.Holds b i) (fuel : ℕ)
    {rest : List SlabRecord} (hl : Linked c.heap.mem p rest) (he : ∀ t ∈ rest, t ∈ c.heap.slabs)
    (hm : s ∈ rest) :
    (fuel < rest.length ∧ Heap.freeLoop fuel c.heap p b.ptr = .error .noReturn) ∨
      Heap.freeLoop fuel c.heap p b.ptr = Slab.free c.heap s.base b.ptr := by
  induction rest generalizing fuel p with
  | nil => cases hm
  | cons t rest ih =>
    obtain ⟨rfl, hl⟩ := hl
    cases fuel with
    | zero => exact inl ⟨Nat.succ_pos _, rfl⟩
    | succ fuel =>
      rw [Heap.freeLoop]
      by_cases hts : t = s
      · subst hts
        rw [if_pos ((h.owns_iff hs hs hh).mpr rfl)]
        exact inr rfl
      have ht := he t List.mem_cons_self
      rw [if_neg fun ho => hts ((h.owns_iff hs ht hh).mp ho)]
      have hm' : s ∈ rest := (List.mem_cons.mp hm).resolve_left fun hq => hts hq.symm
      have hn : next c.heap.mem t.base ≠ 0 := by
        cases rest with
        | nil => cases hm'
        | cons r rest =>
          rw [hl.1]
          exact Nat.pos_iff_ne_zero.mp (h.wf r (he r (by simp))).pos
      rw [if_pos hn]
      refine (ih fuel hl (fun r hr => he r (List.mem_cons_of_mem _ hr)) hm').imp_left ?_
      rintro ⟨hlt, hu⟩
      exact ⟨Nat.succ_lt_succ hlt, hu⟩

theorem free_cases (h : c.Rep) (hb : b ∈ c.live) :
    ∃ heap, Rep ⟨heap, c.live.erase b⟩ ∧
      (∀ d ∈ c.live, d ≠ b → ∀ x, d.Covers x → heap.mem x = c.heap.mem x) ∧
      ∀ fuel, (fuel < c.heap.slabs.length ∧ c.heap.free fuel b.ptr = .error .noReturn) ∨
        c.heap.free fuel b.ptr = .ok heap := by
  obtain ⟨s, hs, i, hh⟩ := h.placed b hb
  obtain ⟨counter, mem, he, hf⟩ :=
    SlabRecord.free_ok (h.described s hs) (h.wf s hs) hh (h.header b hb)
  obtain ⟨hr, hfr⟩ := h.free hs hb hh he
  refine ⟨_, hr, hfr, fun fuel => ?_⟩
  have hp : b.ptr ≠ 0 := by
    have := hh.1
    omega
  rw [Heap.free, if_neg hp, ← hf]
  exact freeLoop_eq h hs hh fuel h.linked (fun t ht => ht) hs

/-! ## Separation -/

/-- The slabs of the chain, as the code finds them. -/
inductive InChain (h : Heap) : ℕ → Prop
  | root : InChain h h.rootSlab
  | next {slab : ℕ} (prev : InChain h slab) (some : Slab.next h.mem slab ≠ 0) :
      InChain h (Slab.next h.mem slab)

/-- **Separation**: live blocks share no byte with each other, with block headers, with slab
descriptors and with bitmaps. -/
structure Separated (c : HeapConfig) : Prop where
  blocks : c.live.Pairwise fun b d => RangesApart b.ptr b.size d.ptr d.size
  headers : ∀ b ∈ c.live, ∀ d ∈ c.live, RangesApart b.ptr b.size (d.ptr - allocSize) allocSize
  descriptors : ∀ b ∈ c.live, ∀ slab, InChain c.heap slab →
    RangesApart b.ptr b.size slab Slab.sizeofSlab
  bitmaps : ∀ b ∈ c.live, ∀ slab, InChain c.heap slab →
    RangesApart b.ptr b.size (slab + Slab.sizeofSlab) (Slab.pieces c.heap.mem slab / 8)

/-- The block `d` and its header are in `mem` as they are in the configuration. -/
def Keeps (c : HeapConfig) (mem : Memory) (d : Block) : Prop :=
  ∀ x, d.ptr - allocSize ≤ x → x < d.ptr + d.size → mem x = c.heap.mem x

/-- A call does what its caller expects, and nothing to other live blocks. -/
def CallSafe (c : HeapConfig) : HeapCall → Prop
  | .malloc fuel answers size => ∀ ptr heap, c.heap.malloc fuel answers size = .ok (ptr, heap) →
      (ptr ≠ 0 → ∀ x, ptr ≤ x → x < ptr + size → heap.mem x = 0#8) ∧
      ∀ d ∈ c.live, c.Keeps heap.mem d
  | .free fuel b =>
      (∀ format, c.heap.free fuel b.ptr ≠ .error (.kpanic format)) ∧
      (∀ heap, c.heap.free fuel b.ptr = .ok heap → ∀ d ∈ c.live, d ≠ b → c.Keeps heap.mem d) ∧
      ∃ enough heap, c.heap.free enough b.ptr = .ok heap
  | .store _ _ _ => True

theorem Rep.mem_of_inChain (h : c.Rep) (hc : InChain c.heap slab) :
    ∃ before s after, c.heap.slabs = before ++ s :: after ∧ s.base = slab := by
  induction hc with
  | root =>
    have hl := h.linked
    have hn := h.nonempty
    cases hsl : c.heap.slabs with
    | nil => exact absurd hsl hn
    | cons s rest =>
      rw [hsl] at hl
      exact ⟨[], s, rest, rfl, hl.1.symm⟩
  | next _ some ih =>
    obtain ⟨before, s, after, hsl, rfl⟩ := ih
    have hl := h.linked
    rw [hsl] at hl
    have ha := hl.after
    cases after with
    | nil => exact absurd ha some
    | cons t rest => exact ⟨before ++ [s], t, rest, by simp [hsl], ha.1.symm⟩

theorem Rep.separated (h : c.Rep) : c.Separated := by
  -- a block starts after its header and ends inside its pieces
  have hi : ∀ b ∈ c.live, b.ptr = b.first + 16 ∧ b.ptr + b.size ≤ b.last := by
    intro b hb
    obtain ⟨_, _, hp, _⟩ := h.bounds hb
    have ho := b.size_le
    rw [last, allocSize]
    omega
  -- the bytes of a block avoid the descriptor and the bitmap of every slab
  have hl : ∀ b ∈ c.live, ∀ slab, InChain c.heap slab →
      b.ptr + b.size ≤ slab ∨ slab + 48 + pieces c.heap.mem slab / 8 ≤ b.ptr := by
    intro b hb slab hc
    obtain ⟨before, s, after, hsl, rfl⟩ := h.mem_of_inChain hc
    have hs : s ∈ c.heap.slabs := by simp [hsl]
    rw [(h.described s hs).pieces]
    obtain ⟨t, ht, hp, hlo, hh⟩ := h.bounds hb
    have hn := hi b hb
    have hr := (h.wf s hs).data_le
    have hbit := s.bitmap_le_data
    have hr' := (h.wf t ht).data_le
    have hi' := t.bitmap_le_data
    rcases h.eq_or_apart hs ht with rfl | ha | ha <;> omega
  refine ⟨?_, ?_, ?_, ?_⟩
  · refine h.disjoint.imp_of_mem fun {b d} hb hd ha => ?_
    have hb' := hi b hb
    have hd' := hi d hd
    rw [RangesApart]
    rcases ha with ha | ha <;> omega
  · intro b hb d hd
    have hb' := hi b hb
    have hd' := hi d hd
    rw [RangesApart, allocSize]
    by_cases hbd : b = d
    · subst hbd
      omega
    · rcases h.disjoint.forall hb hd hbd with ha | ha <;> omega
  · intro b hb slab hc
    have := hl b hb slab hc
    rw [RangesApart, sizeofSlab]
    omega
  · intro b hb slab hc
    have := hl b hb slab hc
    rw [RangesApart, sizeofSlab]
    omega

variable {mem : Memory}

theorem Rep.keeps (h : c.Rep) (hd : d ∈ c.live) (hf : ∀ x, d.Covers x → mem x = c.heap.mem x) :
    c.Keeps mem d := by
  intro x h1 h2
  obtain ⟨_, _, hp, _⟩ := h.bounds hd
  have hc := d.size_le
  exact hf x ⟨h1, by rw [last, allocSize]; omega⟩

theorem Rep.malloc (h : c.Rep) (hm : c.heap.malloc fuel answers size = .ok (ptr, heap)) :
    Rep ⟨heap, if ptr = 0 then c.live else ⟨ptr, size⟩ :: c.live⟩ ∧
      (ptr ≠ 0 → ∀ x, ptr ≤ x → x < ptr + size → heap.mem x = 0#8) ∧
      ∀ x, c.Footprint x → heap.mem x = c.heap.mem x := by
  rw [Heap.malloc] at hm
  split at hm
  · cases hm
    exact ⟨h, fun hn => absurd rfl hn, fun _ _ => rfl⟩
  split at hm
  · cases hm
    exact ⟨h, fun hn => absurd rfl hn, fun _ _ => rfl⟩
  next hp hi =>
    obtain ⟨before, s, after, hl, hb⟩ := h.mem_of_inChain .root
    rw [← hb] at hm
    obtain ⟨ht, hr, hz, hf⟩ :=
      mallocLoop_ok before after s h hl hp (Nat.not_lt.mp hi) hm
    rw [if_neg ht]
    exact ⟨hr, fun _ => hz, hf⟩

variable {call : HeapCall}

theorem Rep.step {c c' : HeapConfig} (h : c.Rep) (legal : c.Legal call)
    (next : c.step call = .ok c') : c'.Rep := by
  cases call with
  | malloc fuel answers size =>
    obtain ⟨⟨ptr, heap⟩, hm, hr⟩ := bind_eq_ok.mp next
    cases hr
    exact (h.malloc hm).1
  | free fuel b =>
    obtain ⟨heap, he, _, hf⟩ := free_cases h legal
    obtain ⟨he', hf', hr⟩ := bind_eq_ok.mp next
    cases hr
    rcases hf fuel with ⟨_, hu⟩ | hu
    · rw [hu] at hf'
      cases hf'
    rw [hu] at hf'
    cases hf'
    exact he
  | store b addr value =>
    cases next
    exact h.store legal.1 legal.2.1 legal.2.2 value

theorem Rep.callSafe (h : c.Rep) (legal : c.Legal call) : c.CallSafe call := by
  cases call with
  | malloc fuel answers size =>
    intro ptr heap hm
    obtain ⟨_, hz, hfr⟩ := h.malloc hm
    exact ⟨hz, fun d hd => h.keeps hd fun x hx => hfr x ⟨d, hd, hx⟩⟩
  | free fuel b =>
    obtain ⟨heap, _, hfr, hf⟩ := free_cases h legal
    refine ⟨fun format he => ?_, fun he' ho d hd hn => ?_, c.heap.slabs.length, heap, ?_⟩
    · rcases hf fuel with ⟨_, hr⟩ | hr <;> rw [hr] at he <;> cases he
    · rcases hf fuel with ⟨_, hr⟩ | hr
      · rw [hr] at ho
        cases ho
      rw [hr] at ho
      cases ho
      exact h.keeps hd (hfr d hd hn)
    · exact (hf _).resolve_left fun hl => absurd hl.1 (lt_irrefl _)
  | store b addr value => trivial

theorem rep_create {answer : VMem} (hc : Heap.create mem answer = .ok heap) : Rep ⟨heap, []⟩ := by
  obtain ⟨⟨new, heap1⟩, hl, hr⟩ := bind_eq_ok.mp hc
  cases hr
  obtain ⟨t, rfl, he, hsl, _, _⟩ := createFromVMem_ok le_rfl (by decide) hl
  have hs' : heap1.slabs = [t] := hsl
  have hm : ∀ s ∈ heap1.slabs, s = t := fun s hs => by simpa [hs'] using hs
  refine ⟨?_, ?_, ?_, ?_, ?_, by simp, by simp, .nil, ?_⟩
  · change Linked heap1.mem t.base heap1.slabs
    rw [hs']
    exact ⟨rfl, he.next⟩
  · simp [hs']
  · intro s hs
    rw [hm s hs]
    exact he.described
  · intro s hs
    rw [hm s hs]
    exact he.wf
  · change heap1.slabs.Pairwise _
    rw [hs']
    exact List.pairwise_singleton _ _
  · intro s hs i hi
    rw [hm s hs] at hi ⊢
    have hcl := he.clear i hi
    simp [hcl]

end HeapConfig

/-- **Heap separation.** From a heap that `createFromVMem` has set up in any memory, in every run of
`malloc`, of `free` of live pointers and of stores into live blocks: live blocks, headers,
descriptors and bitmaps are separate, and every next call is safe. -/
theorem heap_separation (mem : Memory) (answer : VMem) (heap : Heap)
    (hcreate : Heap.create mem answer = .ok heap) (c : HeapConfig)
    (hrun : Reach HeapConfig.step HeapConfig.Legal ⟨heap, []⟩ c) :
    c.Separated ∧ ∀ call, c.Legal call → c.CallSafe call := by
  have hre : c.Rep := hrun.invariant (HeapConfig.rep_create hcreate)
    fun _ _ _ hre legal next => hre.step legal next
  exact ⟨hre.separated, fun _ legal => hre.callSafe legal⟩

theorem heap_separation_one_block :
    ∃ heap c, Heap.create (fun _ => 0#8) ⟨0x1000, fun _ => 0#8⟩ = .ok heap ∧
      Reach HeapConfig.step HeapConfig.Legal ⟨heap, []⟩ c ∧ c.live = [⟨0x3040, 24⟩] ∧
      c.Separated ∧ c.CallSafe (.free 1 ⟨0x3040, 24⟩) := by
  have hrun : (do
      let heap ← Heap.create (fun _ => 0#8) ⟨0x1000, fun _ => 0#8⟩
      let c ← HeapConfig.step ⟨heap, []⟩ (.malloc 3 [] 24)
      return c.live) = Except.ok [⟨0x3040, 24⟩] := by
    decide
  obtain ⟨heap, hcr, hrun⟩ := bind_eq_ok.mp hrun
  obtain ⟨c, hst, hret⟩ := bind_eq_ok.mp hrun
  have hli : c.live = [⟨0x3040, 24⟩] := Except.ok.inj hret
  have hre : Reach HeapConfig.step HeapConfig.Legal ⟨heap, []⟩ c :=
    .step (.malloc 3 [] 24) .refl trivial hst
  have hse := heap_separation _ _ heap hcr c hre
  exact ⟨heap, c, hcr, hre, hli, hse.1, hse.2 _ (by simp [HeapConfig.Legal, hli])⟩

end AexKernel.Mem
