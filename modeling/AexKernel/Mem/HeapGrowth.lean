import AexKernel.Mem.HeapSeparation

/-! # Growth of the kernel heap

When no slab has room for a request, `malloc` appends a new one, and that one has. -/

namespace AexKernel.Mem

open Library Slab Heap SlabRecord

namespace Slab

variable {mem : Memory} {slab : ℕ}

/-- What `createFromVMem(size)` puts into the memory that it asks for lies inside it, and the bitmap
ends in front of the data. -/
structure Fits (size : ℕ) : Prop where
  bitmap : sizeofSlab + intFloor (size / allocSize) 32 / 8 ≤
    dataOffset (intFloor (size / allocSize) 32)
  memset : sizeofSlab + intFloor (size / allocSize) 32 ≤
    size + dataOffset (intFloor (size / allocSize) 32)
  data : dataOffset (intFloor (size / allocSize) 32) + allocSize * intFloor (size / allocSize) 32 ≤
    size + dataOffset (intFloor (size / allocSize) 32)

theorem fits (size : ℕ) : Fits size := by
  refine ⟨?_, ?_, ?_⟩
  all_goals
    simp only [dataOffset, ceilToAllocSize, intCeil, intFloor, allocSize, sizeofSlab]
    omega

variable {amount fuel more size : ℕ}

theorem findFree_mono {r : ℤ} (h : findFree mem slab fuel amount = some r) (hl : fuel ≤ more) :
    findFree mem slab more amount = some r := by
  obtain ⟨n, rfl⟩ := Nat.exists_eq_add_of_le hl
  unfold findFree at h ⊢
  split_ifs at h ⊢
  · exact h
  · exact findLoop_mono h n

theorem findFree_of_clear (mem : Memory) (slab : ℕ) (ha : pieces mem slab % 32 = 0)
    (hs : pieces mem slab < 4294967264) (he : freePieces mem slab = pieces mem slab)
    (hc : ∀ j < pieces mem slab, bit mem slab j = false) (hm : 0 < amount)
    (hl : amount ≤ pieces mem slab) :
    ∃ r, r ≠ -1 ∧ findFree mem slab (pieces mem slab / 32) amount = some r := by
  rcases findLoop_words ha hs (pieces mem slab / 32) 0 ⟨0, 0, -1⟩ (by omega) rfl
    (Scan.ok_reset hm) (Scan.least_zero amount) with ⟨r, hr, hre⟩ | ⟨hn, -⟩
  · refine ⟨r, ?_, ?_⟩
    · have hp := hr.1.1
      omega
    · rw [findFree, if_neg (by omega)]
      simpa using hre 0
  · exact absurd ⟨le_rfl, by simpa using hl, fun j _ hj => hc j (by omega)⟩ (hn 0)

theorem alloc_of_findFree {h : Heap} {r : ℤ} (hp : size ≠ 0)
    (hf : findFree h.mem slab fuel (ceilToPiece (size + allocSize) % 4294967296) = some r) :
    (r = -1 ∧ alloc fuel h slab size = .ok (0, h)) ∨
      ∃ ptr h', ptr ≠ 0 ∧ alloc fuel h slab size = .ok (ptr, h') := by
  rw [alloc, if_neg hp]
  simp only [hf]
  by_cases hn : r = -1
  · rw [if_pos hn]
    exact Or.inl ⟨hn, rfl⟩
  · rw [if_neg hn]
    exact Or.inr ⟨_, _, Nat.succ_ne_zero _, rfl⟩

theorem alloc_ne_kpanic (fuel : ℕ) (h : Heap) (size : ℕ) (format : String) :
    alloc fuel h slab size ≠ .error (.kpanic format) := by
  intro he
  unfold alloc at he
  split_ifs at he
  dsimp only at he
  split at he
  · cases he
  · split_ifs at he

end Slab

namespace Heap

/-- The size for which `malloc(size)` calls `createFromVMem`. -/
def slabSize (size : ℕ) : ℕ := max (size * 2) 0x100000

/-- The memory that a new slab for a request of `size` bytes takes. -/
def newTotal (size : ℕ) : ℕ :=
  slabSize size + Slab.dataOffset (intFloor (slabSize size / allocSize) 32)

theorem createFromVMem_ne_kpanic (h : Heap) (size : ℕ) (ans : VMem) (format : String) :
    Slab.createFromVMem h size ans ≠ .error (.kpanic format) := by
  intro he
  unfold createFromVMem at he
  dsimp only at he
  split at he <;> cases he

theorem mallocLoop_ne_kpanic {fuel slab size : ℕ} {answers : List VMem} {h : Heap}
    (format : String) : mallocLoop fuel answers h slab size ≠ .error (.kpanic format) := by
  induction fuel generalizing answers h slab with
  | zero =>
    intro he
    cases he
  | succ fuel ih =>
    intro he
    rw [mallocLoop] at he
    cases ha : alloc fuel h slab size with
    | error e =>
      rw [ha] at he
      exact alloc_ne_kpanic fuel h size format (ha.trans (by cases he; rfl))
    | ok result =>
      obtain ⟨addr, h₁⟩ := result
      rw [ha, ok_bind] at he
      dsimp only at he
      split_ifs at he with hd hne
      · cases he
      · cases answers with
        | nil => cases he
        | cons answer answers =>
          dsimp only at he
          cases hc : createFromVMem h₁ (max (size * 2) 0x100000) answer with
          | error e =>
            rw [hc] at he
            exact createFromVMem_ne_kpanic _ _ _ format (hc.trans (by cases he; rfl))
          | ok made =>
            obtain ⟨new, h₂⟩ := made
            have hn : 0 < new ∧ new < 256 ^ 8 := by
              unfold createFromVMem at hc
              dsimp only at hc
              split at hc
              · next hf =>
                cases hc
                exact ⟨hf.1, by norm_num; have := hf.2.1; omega⟩
              · cases hc
            rw [hc, ok_bind] at he
            dsimp only at he
            rw [show next (h₂.mem.write (slab + 16) 8 new) slab = new from
              Memory.read_write hn.2, if_pos hn.1.ne'] at he
            exact ih he
      · exact ih he

end Heap

namespace HeapConfig

variable {c : HeapConfig} {size enough fuel : ℕ}

theorem count_le_pieces (hs : size ≤ 67108864) :
    ceilToPiece (size + allocSize) % 4294967296 ≤
      intFloor (slabSize size / allocSize) 32 := by
  simp only [slabSize, ceilToPiece, intCeil, intFloor, allocSize]
  omega

theorem Rep.mallocLoop_returns (h : c.Rep) {ans : VMem} (ho : size ≠ 0) (hsi : size ≤ 67108864)
    (hfr : c.heap.Fresh ans.addr (newTotal size))
    (hf : ∀ s ∈ c.heap.slabs, ∃ r, Slab.findFree c.heap.mem s.base enough (ceilToPiece (size +
      allocSize) % 4294967296) = some r)
    (hen : intFloor (slabSize size / allocSize) 32 / 32 ≤ enough)
    (pre after : List SlabRecord) (s : SlabRecord) (hl : c.heap.slabs = pre ++ s :: after)
    (hu : enough + after.length + 2 ≤ fuel) :
    ∃ ptr heap, ptr ≠ 0 ∧ mallocLoop fuel [ans] c.heap s.base size = .ok (ptr, heap) := by
  induction after generalizing pre s fuel with
  | nil =>
    obtain ⟨fuel, rfl⟩ := Nat.exists_eq_add_of_le' (show 2 ≤ fuel by omega)
    have hs : s ∈ c.heap.slabs := by simp [hl]
    obtain ⟨r, hr⟩ := hf s hs
    rw [mallocLoop]
    rcases alloc_of_findFree ho (findFree_mono hr (show enough ≤ fuel + 1 by omega)) with
      ⟨-, ha⟩ | ⟨ptr, heap, hp, ha⟩
    swap
    · refine ⟨ptr, heap, hp, ?_⟩
      rw [ha, ok_bind]
      exact if_pos hp
    have hli := h.linked
    rw [hl] at hli
    have hn : next c.heap.mem s.base = 0 := hli.after
    -- the chain ends here: the new slab is empty and large enough
    obtain ⟨heap2, hc, hla⟩ : ∃ heap2, createFromVMem c.heap (slabSize size) ans =
        .ok (ans.addr, heap2) ∧ heap2.slabs = c.heap.slabs ++
          [⟨ans.addr, intFloor (slabSize size / allocSize) 32, newTotal size⟩] := by
      refine ⟨_, if_pos hfr, ?_⟩
      rfl
    obtain ⟨t, ht, he, hs', -, hap⟩ := createFromVMem_ok (le_max_right ..)
      (show slabSize size ≤ 134217728 from max_le (by omega) (by decide)) hc
    obtain rfl : t = ⟨ans.addr, intFloor (slabSize size / allocSize) 32,
        newTotal size⟩ :=
      (List.cons.inj (List.append_cancel_left (hs'.symm.trans hla))).1
    set t : SlabRecord := ⟨ans.addr, intFloor (slabSize size / allocSize) 32,
      newTotal size⟩ with htd
    have hro := (h.wf s hs).data_le
    have hb := s.bitmap_le_data
    have htr := he.wf.data_le
    have htb := t.bitmap_le_data
    have hsa : ∀ x, t.base ≤ x → x < t.base + t.total →
        heap2.mem.write (s.base + 16) 8 t.base x = heap2.mem x := by
      intro x h1 h2
      rw [Memory.write_of_not_mem]
      rcases hap s hs with hlt | hlt <;> omega
    have hd : t.Described (heap2.mem.write (s.base + 16) 8 t.base) :=
      he.described.congr (fun x h1 h2 => hsa x h1 (by omega))
        fun x h1 h2 => hsa x (by omega) (by omega)
    have hw : next (heap2.mem.write (s.base + 16) 8 t.base) s.base = t.base :=
      Memory.read_write (by
        have hend := he.wf.last
        norm_num
        omega)
    have hi := hd.pieces
    have hlt := he.wf.small
    obtain ⟨r', hne, hr'⟩ := findFree_of_clear (heap2.mem.write (s.base + 16) 8 t.base) t.base
      (by rw [hi]; exact he.wf.aligned) (by rw [hi]; omega)
      (hd.freePieces.trans hi.symm)
      (fun j hj => by
        rw [hi] at hj
        rw [bit_congr he.wf (fun x hx => ?_) hj, he.clear j hj]
        simp only [InBitmap, sizeofSlab] at hx
        exact hsa x (by omega) (by omega))
      (show 0 < ceilToPiece (size + allocSize) % 4294967296 by
        simp only [ceilToPiece, intCeil, allocSize]
        omega)
      (by rw [hi]; exact count_le_pieces hsi)
    rw [hi] at hr'
    obtain ⟨ptr, heap, hp, ha'⟩ := (alloc_of_findFree
      (h := { heap2 with mem := heap2.mem.write (s.base + 16) 8 t.base }) ho
      (findFree_mono hr' (show t.pieces / 32 ≤ fuel from hen.trans (by
        rw [List.length_nil] at hu; omega)))).resolve_left fun hnon => hne hnon.1
    refine ⟨ptr, heap, hp, ?_⟩
    rw [ha, ok_bind]
    dsimp only
    rw [if_neg (not_not.mpr rfl), if_pos hn, show max (size * 2) 0x100000 = slabSize size from rfl, hc, ok_bind]
    rw [show ans.addr = t.base from rfl, hw, if_pos he.wf.pos.ne', mallocLoop, ha', ok_bind]
    exact if_pos hp
  | cons t rest ih =>
    obtain ⟨fuel, rfl⟩ := Nat.exists_eq_add_of_le' (show 1 ≤ fuel by omega)
    rw [List.length_cons] at hu
    have hs : s ∈ c.heap.slabs := by simp [hl]
    obtain ⟨r, hr⟩ := hf s hs
    rw [mallocLoop]
    rcases alloc_of_findFree ho (findFree_mono hr (show enough ≤ fuel by omega)) with
      ⟨-, ha⟩ | ⟨ptr, heap, hp, ha⟩
    · have hli := h.linked
      rw [hl] at hli
      have hn : next c.heap.mem s.base = t.base := hli.after.1
      have hne : t.base ≠ 0 := (h.wf t (by simp [hl])).pos.ne'
      obtain ⟨ptr, heap, hp, hlo⟩ :=
        ih (pre ++ [s]) t (by simp [hl]) (show enough + rest.length + 2 ≤ fuel by omega)
      refine ⟨ptr, heap, hp, ?_⟩
      rw [ha, ok_bind]
      dsimp only
      rw [if_neg (not_not.mpr rfl), hn, if_neg hne]
      exact hlo
    · refine ⟨ptr, heap, hp, ?_⟩
      rw [ha, ok_bind]
      exact if_pos hp

end HeapConfig

/-- **Heap growth.** In every state of every run of the heap and for every request that `malloc`
takes: the call never panics; where the searches of the slabs end, it returns a block with one answer
of `Pagemap::alloc`; and a new slab lies inside the memory that was asked for. -/
theorem malloc_grows (mem : Memory) (first : VMem) (heap : Heap)
    (hcreate : Heap.create mem first = .ok heap) (c : HeapConfig)
    (hrun : Reach HeapConfig.step HeapConfig.Legal ⟨heap, []⟩ c) (size : ℕ) (hpos : 0 < size)
    (hsize : size ≤ 67108864) :
    (∀ fuel answers format, c.heap.malloc fuel answers size ≠ .error (.kpanic format)) ∧
    (∀ answer, c.heap.Fresh answer.addr (Heap.newTotal size) →
      (∀ s ∈ c.heap.slabs, ∃ fuel r,
        Slab.findFree c.heap.mem s.base fuel (ceilToPiece (size + allocSize)) = some r) →
      ∃ enough, ∀ fuel ≥ enough, ∃ ptr heap',
        c.heap.malloc fuel [answer] size = .ok (ptr, heap') ∧ ptr ≠ 0) ∧
    Slab.Fits 0x100000 ∧ Slab.Fits (Heap.slabSize size) := by
  have hre : c.Rep := hrun.invariant (HeapConfig.rep_create hcreate)
    fun _ _ _ hre legal next => hre.step legal next
  have hma : ∀ fuel answers,
      c.heap.malloc fuel answers size = c.heap.mallocLoop fuel answers c.heap.rootSlab size := by
    intro fuel answers
    rw [malloc, if_neg hpos.ne', if_neg hsize.not_gt]
  refine ⟨fun fuel answers format => ?_, fun answer hfr hfin => ?_, fits _, fits _⟩
  · rw [hma]
    exact mallocLoop_ne_kpanic format
  obtain ⟨before, s, after, hsl, hba⟩ := hre.mem_of_inChain .root
  have hmod : ceilToPiece (size + allocSize) % 4294967296 = ceilToPiece (size + allocSize) :=
    Nat.mod_eq_of_lt (count_small (b := ⟨0, size⟩) hsize)
  -- one bound for the searches of all slabs
  obtain ⟨bound, hbo⟩ : ∃ bound, ∀ s ∈ c.heap.slabs, ∃ r, findFree c.heap.mem s.base bound
      (ceilToPiece (size + allocSize) % 4294967296) = some r := by
    rw [hmod]
    clear hsl
    generalize c.heap.slabs = slabs at hfin ⊢
    induction slabs with
    | nil => exact ⟨0, fun s hs => absurd hs List.not_mem_nil⟩
    | cons t rest ih =>
      obtain ⟨bound, hbo⟩ := ih fun s hs => hfin s (List.mem_cons_of_mem t hs)
      obtain ⟨fuel, r, hr⟩ := hfin t List.mem_cons_self
      refine ⟨max bound fuel, fun s hs => ?_⟩
      rcases List.mem_cons.mp hs with rfl | hs
      · exact ⟨r, findFree_mono hr (le_max_right ..)⟩
      obtain ⟨r', hr'⟩ := hbo s hs
      exact ⟨r', findFree_mono hr' (le_max_left ..)⟩
  have hle := le_max_right bound (intFloor (slabSize size / allocSize) 32 / 32)
  refine ⟨max bound (intFloor (slabSize size / allocSize) 32 / 32) + after.length + 2,
    fun fuel hfu => ?_⟩
  obtain ⟨ptr, heap', hptr, hlo⟩ := hre.mallocLoop_returns hpos.ne' hsize hfr
    (fun s hs => (hbo s hs).imp fun r hr => findFree_mono hr (le_max_left ..)) hle before
    after s hsl hfu
  rw [hma, ← hba]
  exact ⟨ptr, heap', hlo, hptr⟩

theorem malloc_grows_new :
    ∃ heap, Heap.create (fun _ => 0#8) ⟨0x1000, fun _ => 0#8⟩ = .ok heap ∧
      (∀ fuel answers format, heap.malloc fuel answers 24 ≠ .error (.kpanic format)) ∧
      ∃ fuel ptr heap', heap.malloc fuel [⟨0x1000000, fun _ => 0#8⟩] 24 = .ok (ptr, heap') ∧
        ptr ≠ 0 := by
  have hnew : (do
      let heap ← create (fun _ => 0#8) ⟨0x1000, fun _ => 0#8⟩
      return (heap.slabs.all fun s =>
        (findFree heap.mem s.base 1 (ceilToPiece (24 + allocSize))).isSome) &&
          decide (heap.Fresh 0x1000000 (newTotal 24))) = Except.ok true := by
    decide
  obtain ⟨heap, hcr, hre⟩ := bind_eq_ok.mp hnew
  obtain ⟨hfin, hfr⟩ := Bool.and_eq_true_iff.mp (Except.ok.inj hre)
  obtain ⟨hno, hgr, -⟩ := malloc_grows _ _ heap hcr ⟨heap, []⟩ .refl 24 (by decide) (by decide)
  obtain ⟨enough, hre⟩ := hgr ⟨0x1000000, fun _ => 0#8⟩ (of_decide_eq_true hfr) fun s hs =>
    ⟨1, Option.isSome_iff_exists.mp (List.all_eq_true.mp hfin s hs)⟩
  exact ⟨heap, hcr, hno, enough, hre enough le_rfl⟩

end AexKernel.Mem
