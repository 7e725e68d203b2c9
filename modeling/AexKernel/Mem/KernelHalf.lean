import AexKernel.Mem.FreeSearch
import AexKernel.Mem.UserCalls

/-! # The kernel half of pagemaps

The constructors of `Pagemap` copy the slots 256 to 511 of the kernel's root once. -/

namespace AexKernel.Mem

open Library Machine List Function
open BitVec (ofNat ofNat_add toNat_add toNat_ofNat)

/-- The paths of the pages that the boot code maps. -/
def bootPath : List Index → Bool
  | [_, pd, pdp, pml4] =>
    (pml4 = 0#9 ∧ pdp = 0#9 ∧ pd < 8#9) ∨ (pml4 = 511#9 ∧ pdp = 510#9 ∧ pd < 4#9)
  | _ => false

/-- The kernel's pagemap: its tables, and the pages that own their frame. -/
def kernelTree : View where
  scope _ := true
  owned p e := e ≠ 0 ∧ e &&& pageNophys = 0 ∧ ¬ bootPath p
  owned_zero _ := rfl

/-- Two slots refer to the same table, or both to none. -/
structure SameTable (e e' : Entry) : Prop where
  zero : e = 0 ↔ e' = 0
  frame : frameOf e = frameOf e'
  present : e &&& pagePresent = 0 ↔ e' &&& pagePresent = 0

theorem SameTable.refl (e : Entry) : SameTable e e := ⟨Iff.rfl, rfl, Iff.rfl⟩

/-- The kernel's pagemap is a tree, and the roots of the pagemaps that are alive refer to the same
tables as its upper half. -/
structure KernelHalf (k : Frame) (live : List Frame) (s : Machine) : Prop where
  tree : Tree kernelTree s {k}
  spare : ∀ g ∈ live, Spare kernelTree {k} s g
  shared : ∀ g ∈ live, ∀ i, ¬ i < 256#9 → SameTable (s.mem g i) (s.mem k i)

/-- The slot of an address is marked as present, if it is one of those that are copied. -/
def Mapped (k : Frame) (s : Machine) (v : BitVec 64) : Prop :=
  ¬ pml4Index v < 256#9 → s.mem k (pml4Index v) &&& pagePresent ≠ 0

def Private (k : Frame) (live : List Frame) (s : Machine) (f : Frame) : Prop :=
  Spare kernelTree {k} s f ∧ f ∉ live

variable {k : Frame} {live : List Frame} {s s' s'' : Machine} {v : BitVec 64}

/-! ## The slots of the root -/

/-- What a walk to an address does to the root. -/
structure RootMarked (k : Frame) (v : BitVec 64) (s s' : Machine) : Prop where
  other : ∀ j, j ≠ pml4Index v → s'.mem k j = s.mem k j
  entered : s'.mem k (pml4Index v) &&& pagePresent ≠ 0
  marked : s.mem k (pml4Index v) &&& pagePresent ≠ 0 →
    s'.mem k (pml4Index v) = s.mem k (pml4Index v) ||| tableFlags
  replaced : s.mem k (pml4Index v) &&& pagePresent = 0 →
    frameOf (s'.mem k (pml4Index v)) ∉ s.outstanding

variable {t t' f g root : Frame}

theorem Machine.ensureTable_mem {i : Index} (ht : t ∈ s.outstanding)
    (h : s.ensureTable t i = .ok (t', s')) (hf : f ∈ s.outstanding) (hft : f ≠ t) :
    s'.mem f = s.mem f := by
  rcases ensureTable_cases ht h with ⟨-, hg, hs'⟩ | ⟨-, -, rfl⟩
  · have hfg : f ≠ t' := fun he => hg (he ▸ hf)
    rw [hs', mem_plant, writeSlot_table_ne hft, update_of_ne hfg]
  · rw [mem_write, writeSlot_table_ne hft]

theorem Machine.ensureTable_root (hk : k ∈ s.outstanding)
    (h : s.ensureTable k (pml4Index v) = .ok (t', s')) : RootMarked k v s s' := by
  rcases ensureTable_cases hk h with ⟨ha, hg, hs'⟩ | ⟨hp, -, rfl⟩
  · have hkg : k ≠ t' := fun he => hg (he ▸ hk)
    refine ⟨fun j hj => ?_, ?_, fun hp => absurd ha hp, fun _ => ?_⟩
    · rw [hs', mem_plant, writeSlot_ne fun h => hj h.2, update_of_ne hkg]
    · rw [hs', mem_plant, writeSlot_self]
      exact or_tableFlags_present _
    · rwa [hs', mem_plant, writeSlot_self, frameOf_or_tableFlags, frameOf_frameAddr]
  refine ⟨fun j hj => ?_, ?_, fun _ => ?_, fun ha => absurd ha hp⟩
  · rw [mem_write, writeSlot_ne fun h => hj h.2]
  · rw [mem_write, writeSlot_self]
    exact or_tableFlags_present _
  · rw [mem_write, writeSlot_self]

section

variable (htr : Tree kernelTree s {k})
include htr

theorem kernelTree_root : k ∈ s.outstanding :=
  htr.outstanding k rfl [] k rfl

theorem kernelTree_ne {p : List Index} (hf : kernelTree.tableAt s k p = some f) (hp : p ≠ []) :
    k ≠ f :=
  htr.ne_of_length rfl hf rfl (p := []) rfl fun h => hp (eq_nil_of_length_eq_zero h.symm)

theorem Machine.findTableEnsure_root (h : s.findTableEnsure k v = .ok (t, s')) :
    RootMarked k v s s' := by
  obtain ⟨⟨pdp, s1⟩, h1, he⟩ := bind_eq_ok.mp h
  obtain ⟨⟨pd, s2⟩, h2, h3⟩ := bind_eq_ok.mp he
  have hk := kernelTree_root htr
  have hr := ensureTable_root hk h1
  have e1 := ensureTable_spec htr rfl (q := []) rfl Entered.nil (by decide) (fun _ => rfl) h1
  have e2 := ensureTable_spec e1.tree rfl e1.table e1.entered (by simp)
    (fun h => absurd h (cons_ne_nil _ _)) h2
  have hs : s'.mem k = s1.mem k := by
    rw [ensureTable_mem (e2.tree.outstanding k rfl _ _ e2.table) h3 (kernelTree_root e2.tree)
        (kernelTree_ne e2.tree e2.table (cons_ne_nil _ _)),
      ensureTable_mem (e1.tree.outstanding k rfl _ _ e1.table) h2 (kernelTree_root e1.tree)
        (kernelTree_ne e1.tree e1.table (cons_ne_nil _ _))]
  exact ⟨fun j hj => hs ▸ hr.other j hj, hs ▸ hr.entered,
    fun hp => hs ▸ hr.marked hp, fun hp => hs ▸ hr.replaced hp⟩

end

theorem SameTable.marked {e e' : Entry} (h : SameTable e e') (hp : e' &&& pagePresent ≠ 0) :
    SameTable e (e' ||| tableFlags) where
  zero := ⟨fun he => absurd (h.zero.mp he) (ne_zero_of_present hp),
    fun he => absurd he (or_tableFlags_ne_zero _)⟩
  frame := by rw [frameOf_or_tableFlags, h.frame]
  present := ⟨fun he => absurd (h.present.mp he) hp, fun he => absurd he (or_tableFlags_present _)⟩

/-! ## Steps -/

theorem KernelHalf.walk (h : KernelHalf k live s) (hr : RootMarked k v s s')
    (hv : live ≠ [] → Mapped k s v) (htr : Tree kernelTree s' {k})
    (hsp : ∀ g ∈ live, Spare kernelTree {k} s' g) (hm : ∀ g ∈ live, s'.mem g = s.mem g) :
    KernelHalf k live s' := by
  refine ⟨htr, hsp, fun g hg i hi => ?_⟩
  rw [hm g hg]
  by_cases hs : i = pml4Index v
  · subst hs
    have hp := hv (ne_nil_of_mem hg) hi
    rw [hr.marked hp]
    exact (h.shared g hg _ hi).marked hp
  · rw [hr.other i hs]
    exact h.shared g hg i hi

/-- The kernel half is shared after a call, and the slots that were mapped still are. -/
structure Stays (k : Frame) (live : List Frame) (s s' : Machine) : Prop where
  half : KernelHalf k live s'
  keeps : live ≠ [] → ∀ v, Mapped k s v → Mapped k s' v

theorem Stays.trans (h : Stays k live s s') (h' : Stays k live s' s'') : Stays k live s s'' :=
  ⟨h'.half, fun hl v hv => h'.keeps hl v (h.keeps hl v hv)⟩

theorem KernelHalf.stays (h : KernelHalf k live s) : Stays k live s s := ⟨h, fun _ _ hv => hv⟩

variable {u p stride bytes addr : BitVec 64}

theorem RootMarked.mapped (hr : RootMarked k v s s') (hv : Mapped k s v) (hu : Mapped k s u) :
    Mapped k s' u := by
  intro hi
  by_cases hs : pml4Index u = pml4Index v
  · rw [hs] at hi ⊢
    rw [hr.marked (hv hi)]
    exact or_tableFlags_present _
  · rw [hr.other _ hs]
    exact hu hi

theorem KernelHalf.findTableEnsure (h : KernelHalf k live s) (hv : live ≠ [] → Mapped k s v)
    (hc : s.findTableEnsure k v = .ok (t, s')) : Stays k live s s' := by
  have he := findTableEnsure_spec h.tree rfl rfl hc
  have hr := findTableEnsure_root h.tree hc
  refine ⟨h.walk hr hv he.tree (fun g hg => he.grown.spare (h.spare g hg)) fun g hg => ?_,
    fun hl u hu => hr.mapped (hv hl) hu⟩
  exact he.grown.mem_spare rfl (h.spare g hg)

theorem KernelHalf.pageSet (h : KernelHalf k live s) (hv : live ≠ [] → Mapped k s v) {e : Entry}
    (hs : PageSet kernelTree {k} k (pageOf v) e s s') (hr : RootMarked k v s s')
    (he : kernelTree.owned (pagePath (pageOf v)) e → frameOf e ∉ live) :
    Stays k live s s' ∧ ∀ f, Private k live s f →
      (kernelTree.owned (pagePath (pageOf v)) e → f ≠ frameOf e) → Private k live s' f := by
  have hp : ∀ g ∈ live, Spare kernelTree {k} s' g := by
    intro g hg
    refine hs.spare (h.spare g hg) fun ho hq => ?_
    exact he ho (hq ▸ hg)
  refine ⟨⟨h.walk hr hv hs.tree hp fun g hg => hs.mem_spare rfl (h.spare g hg),
    fun hl u hu => hr.mapped (hv hl) hu⟩, fun f hf hn => ⟨hs.spare hf.1 hn, hf.2⟩⟩

theorem pml4Index_and_memPageMask (v : BitVec 64) : pml4Index (v &&& memPageMask) = pml4Index v := by
  rw [pml4Index_eq, pml4Index_eq, pageOf_and_memPageMask]

theorem RootMarked.setPage {n : PageNumber} {s1 : Machine}
    (hr : RootMarked k (v &&& memPageMask) s s1)
    (hn : Ensured kernelTree {k} k (tablePath n) s t s1) (i : Index) (e : Entry) :
    RootMarked k v s (s1.write t i e) := by
  have hk : k ≠ t := kernelTree_ne hn.tree hn.table (cons_ne_nil _ _)
  have hm : (s1.write t i e).mem k = s1.mem k := writeSlot_table_ne hk _ _ _
  obtain ⟨ho, he, ha, hre⟩ := hr
  rw [pml4Index_and_memPageMask] at ho he ha hre
  exact ⟨by rwa [hm], by rwa [hm], by rwa [hm], by rwa [hm]⟩

variable {flags : BitVec 16}

theorem Machine.assign_root (htr : Tree kernelTree s {k}) (h : s.assign k v p flags = .ok s') :
    RootMarked k v s s' := by
  obtain ⟨⟨t, s1⟩, hf, hr⟩ := bind_eq_ok.mp h
  cases hr
  exact (findTableEnsure_root htr hf).setPage (findTableEnsure_spec htr rfl rfl hf) _ _

theorem KernelHalf.assign (h : KernelHalf k live s) (hv : live ≠ [] → Mapped k s v)
    (he : (assigned p flags) &&& pageNophys = 0 →
      Private k live s (frameOf (assigned p flags)))
    (hc : s.assign k v p flags = .ok s') :
    Stays k live s s' ∧ ∀ f, Private k live s f →
      ((assigned p flags) &&& pageNophys = 0 →
        f ≠ frameOf (assigned p flags)) → Private k live s' f := by
  have hw : kernelTree.owned (pagePath (pageOf v)) (assigned p flags) →
      (assigned p flags) &&& pageNophys = 0 := fun h =>
    (of_decide_eq_true h).2.1
  have hs := assign_spec h.tree rfl rfl (fun ho => (he (hw ho)).1) hc
  obtain ⟨ht, hp⟩ := h.pageSet hv hs (assign_root h.tree hc) fun ho => (he (hw ho)).2
  exact ⟨ht, fun f hf hn => hp f hf fun ho => hn (hw ho)⟩

/-! ## Frames -/

section

variable (h : KernelHalf k live s)
include h

theorem KernelHalf.fill (hl : g ∉ live)
    (hg : ∀ q, q.length < 4 → kernelTree.tableAt s k q ≠ some g) (w : Index → Entry) :
    Stays k live s (s.fill g w) ∧ ∀ f, Private k live s f → Private k live (s.fill g w) f := by
  have hg' : ∀ r ∈ ({k} : Set Frame), ∀ q, q.length < 4 → kernelTree.tableAt s r q ≠ some g := by
    intro r hr q hq
    rw [Set.mem_singleton_iff.mp hr]
    exact hg q hq
  have hs : ∀ f, Spare kernelTree {k} s f → Spare kernelTree {k} (s.fill g w) f := by
    refine fun f hf => ⟨hf.1, fun r hr p hp => hf.2 r hr p ?_⟩
    exact (Tree.tableAt_fill hg' w hr p).symm.trans hp
  have hk : (s.fill g w).mem k = s.mem k := by
    refine update_of_ne ?_ _ _
    rintro rfl
    exact hg [] (by decide) rfl
  refine ⟨⟨⟨h.tree.fill hg' w, fun f hf => hs f (h.spare f hf), fun f hf i hi => ?_⟩, ?_⟩,
    fun f hf => ⟨hs f hf.1, hf.2⟩⟩
  · have hfg : f ≠ g := by
      rintro rfl
      exact hl hf
    rw [hk, mem_fill, update_of_ne hfg]
    exact h.shared f hf i hi
  · intro _ v hv hi
    rw [hk]
    exact hv hi

theorem KernelHalf.outstanding (hm : s'.mem = s.mem)
    (he : ∀ p f, kernelTree.tableAt s k p = some f → f ∈ s'.outstanding)
    (hl : ∀ g ∈ live, g ∈ s'.outstanding) : Stays k live s s' := by
  rcases s with ⟨mem, supply, outstanding⟩
  rcases s' with ⟨mem', supply', outstanding'⟩
  obtain rfl : mem' = mem := hm
  refine ⟨⟨⟨h.tree.separated, fun r hr => ?_, h.tree.dormant⟩,
    fun g hg => ⟨hl g hg, (h.spare g hg).2⟩, h.shared⟩, fun _ _ hv => hv⟩
  rw [Set.mem_singleton_iff.mp hr]
  exact he

theorem KernelHalf.take {fs : List Frame} (hn : ∀ f ∈ fs, f ∉ s.outstanding)
    (hm : s'.mem = s.mem) (ho : s'.outstanding = fs ++ s.outstanding) :
    Stays k live s s' ∧ ∀ f ∈ fs, Private k live s' f := by
  refine ⟨h.outstanding hm (fun p f hf => ?_) fun g hg => ?_, fun f hf => ⟨⟨?_, ?_⟩, fun hl => ?_⟩⟩
  · exact ho ▸ mem_append_right _ (h.tree.outstanding k rfl p f hf)
  · exact ho ▸ mem_append_right _ (h.spare g hg).1
  · exact ho ▸ mem_append_left _ hf
  · intro r hr p hp
    rw [hm] at hp
    exact hn f hf (h.tree.outstanding r hr p f hp)
  · exact hn f hf (h.spare f hl).1

theorem KernelHalf.physAlloc (ha : s.physAlloc = .ok (g, s')) :
    Stays k live s s' ∧ Private k live s' g := by
  obtain ⟨hg, hs'⟩ := physAlloc_eq_ok ha
  have hm : s'.mem = s.mem := by rw [hs']
  have ho : s'.outstanding = [g] ++ s.outstanding := by rw [hs']; rfl
  have ht := h.take (fun f hf => mem_singleton.mp hf ▸ hg) hm ho
  exact ⟨ht.1, ht.2 g (mem_singleton_self g)⟩

theorem KernelHalf.physFree (hg : Unreached kernelTree.child s.mem {k} g) (hl : g ∉ live)
    (hr : s.physFree g = .ok s') : Stays k live s s' ∧ s'.mem = s.mem := by
  rw [Machine.physFree] at hr
  split_ifs at hr
  cases hr
  refine ⟨h.outstanding rfl (fun p f hf => ?_) fun f hf => ?_, rfl⟩
  · refine mem_filter.mpr ⟨h.tree.outstanding k rfl p f hf, decide_eq_true ?_⟩
    rintro rfl
    exact hg k rfl p hf
  · refine mem_filter.mpr ⟨(h.spare f hf).1, decide_eq_true ?_⟩
    rintro rfl
    exact hl hf

theorem KernelHalf.freePhys {buff : List (BitVec 64)}
    (hu : ∀ a ∈ buff, Private k live s (frameOf a)) (hc : s.freePhys buff = .ok s') :
    Stays k live s s' := by
  have hl : ∀ a ∈ buff, Unreached kernelTree.child s.mem {k} (frameOf a) ∧ frameOf a ∉ live :=
    fun a ha => ⟨(hu a ha).1.2, (hu a ha).2⟩
  clear hu
  induction buff generalizing s with
  | nil =>
    cases hc
    exact h.stays
  | cons a rest ih =>
    obtain ⟨s1, hf, hr⟩ := bind_eq_ok.mp hc
    obtain ⟨hn, hi⟩ := hl a mem_cons_self
    obtain ⟨hs, hm⟩ := h.physFree hn hi hf
    refine hs.trans (ih hs.half hr fun b hb => ?_)
    rw [hm]
    exact hl b (mem_cons_of_mem _ hb)

end

/-! ## Mapping -/

def MappedRange (k : Frame) (s : Machine) (v : BitVec 64) (n : ℕ) : Prop :=
  ∀ j < n, Mapped k s (v + BitVec.ofNat 64 (4096 * j))

theorem add_page (v : BitVec 64) (j : ℕ) :
    v + 4096#64 + ofNat 64 (4096 * j) = v + ofNat 64 (4096 * (j + 1)) := by
  rw [BitVec.add_assoc, Nat.mul_add, Nat.add_comm, ofNat_add]

variable {n : ℕ}

theorem MappedRange.head (h : MappedRange k s v (n + 1)) : Mapped k s v := by
  have := h 0 n.succ_pos
  rwa [Nat.mul_zero, BitVec.add_zero] at this

theorem MappedRange.tail (h : MappedRange k s v (n + 1)) : MappedRange k s (v + 4096#64) n := by
  intro j hj
  rw [add_page]
  exact h (j + 1) (Nat.succ_lt_succ hj)

theorem Stays.range (h : Stays k live s s') (hl : live ≠ [])
    (hr : MappedRange k s v n) : MappedRange k s' v n := fun j hj => h.keeps hl _ (hr j hj)

theorem frameOf_allocEntry (map : Pagemap) (flags : BitVec 32) (p : BitVec 64) :
    frameOf ((p &&& memPageMask) ||| (allocFlags map flags).setWidth 64) = frameOf p := by
  rw [frameOf_or, frameOf_flags (allocFlags_lt map flags), frameOf_and_memPageMask]
  exact BitVec.or_zero

theorem KernelHalf.fill_private (h : KernelHalf k live s) (hg : Private k live s g)
    (w : Index → Entry) :
    Stays k live s (s.fill g w) ∧ ∀ f, Private k live s f → Private k live (s.fill g w) f :=
  h.fill hg.2 (fun q _ => hg.1.2 k rfl q) w

theorem KernelHalf.allocLoop (map : Pagemap) (flags : BitVec 32) (h : KernelHalf k live s)
    (hv : live ≠ [] → MappedRange k s v n)
    (hc : Machine.allocLoop k (allocFlags map flags) n s v = .ok s') :
    Stays k live s s' := by
  induction n generalizing s v with
  | zero =>
    cases hc
    exact h.stays
  | succ n ih =>
    obtain ⟨⟨g, s1⟩, ha, hr⟩ := bind_eq_ok.mp hc
    obtain ⟨s2, hs, ho⟩ := bind_eq_ok.mp hr
    obtain ⟨h1, hg⟩ := h.physAlloc ha
    obtain ⟨h2, hp⟩ := h1.half.fill_private hg fun _ => 0
    have h₁₂ := h1.trans h2
    obtain ⟨h3, -⟩ := h₁₂.half.assign (fun hl => h₁₂.keeps hl _ (hv hl).head)
      (fun _ => by rw [frameOf_allocEntry, frameOf_frameAddr]; exact hp g hg) hs
    have h₁₃ := h₁₂.trans h3
    exact h₁₃.trans (ih h₁₃.half (fun hl => h₁₃.range hl (hv hl).tail) ho)

theorem KernelHalf.mapLoop (map : Pagemap) (flags : BitVec 16) (h : KernelHalf k live s)
    (hv : live ≠ [] → MappedRange k s v n)
    (hc : Machine.mapLoop k (mapFlags map flags) stride n s v p = .ok s') :
    Stays k live s s' := by
  induction n generalizing s v p with
  | zero =>
    cases hc
    exact h.stays
  | succ n ih =>
    obtain ⟨s1, ha, ho⟩ := bind_eq_ok.mp hc
    obtain ⟨h1, -⟩ := h.assign (fun hl => (hv hl).head)
      (fun hn => absurd hn (mapFlags_nophys map flags _)) ha
    exact h1.trans (ih h1.half (fun hl => h1.range hl (hv hl).tail) ho)

/-! ### Regions -/

theorem frameAddr_succ (f : Frame) : frameAddr f + 4096#64 = frameAddr (f + 1#52) := by
  rw [← BitVec.toNat_inj, frameAddr, frameAddr, toNat_add]
  simp only [BitVec.toNat_shiftLeft, BitVec.toNat_setWidth, Nat.shiftLeft_eq, toNat_add]
  have := f.isLt
  simp only [toNat_ofNat]
  omega

theorem region_succ (f : Frame) (n : ℕ) : region f (n + 1) = f :: region (f + 1#52) n := by
  rw [region, range_succ_eq_map, map_cons, map_map, region]
  refine congrArg₂ cons (BitVec.add_zero f) (map_congr_left fun j _ => ?_)
  rw [comp_apply, BitVec.add_assoc, ← ofNat_add, Nat.add_comm]

theorem nodup_region (h : n ≤ 2 ^ 52) : (region f n).Nodup := by
  refine List.Nodup.map_on (fun i hi j hj he => ?_) nodup_range
  have hij := congrArg BitVec.toNat he
  rw [mem_range] at hi hj
  simp only [toNat_add, toNat_ofNat] at hij
  have := f.isLt
  omega

theorem KernelHalf.allocContinuousLoop (map : Pagemap) (flags : BitVec 32) (h : KernelHalf k live s)
    (hv : live ≠ [] → MappedRange k s v n) (hp : ∀ g ∈ region f n, Private k live s g)
    (hn : (region f n).Nodup)
    (hc : Machine.allocContinuousLoop k (allocFlags map flags) n s v (frameAddr f) = .ok s') :
    Stays k live s s' := by
  induction n generalizing s v f with
  | zero =>
    cases hc
    exact h.stays
  | succ n ih =>
    obtain ⟨s1, ha, hlo⟩ := bind_eq_ok.mp hc
    rw [frameOf_frameAddr] at ha
    rw [region_succ] at hp hn
    obtain ⟨ho, hn⟩ := nodup_cons.mp hn
    have hf := hp f mem_cons_self
    obtain ⟨h1, hpr1⟩ := h.fill_private hf fun _ => 0
    obtain ⟨h2, hpr2⟩ := h1.half.assign (fun hl => h1.keeps hl _ (hv hl).head)
      (fun _ => by rw [frameOf_allocEntry, frameOf_frameAddr]; exact hpr1 f hf) ha
    have h₁₂ := h1.trans h2
    rw [frameAddr_succ] at hlo
    refine h₁₂.trans (ih h₁₂.half (fun hl => h₁₂.range hl (hv hl).tail) (fun g hg => ?_) hn hlo)
    refine hpr2 g (hpr1 g (hp g (mem_cons_of_mem _ hg))) fun _ => ?_
    rw [frameOf_allocEntry, frameOf_frameAddr]
    rintro rfl
    exact ho hg

/-! ### Placing -/

/-- The search for pages comes to a run of free pages before it leaves the slots that are present.
-/
def FoundIn (k : Frame) (s : Machine) (executable : Bool) (amount count : ℕ) : Prop :=
  ∃ R, (searchStart (kernelPagemap k) executable).toNat + 4096 * (R + count) < 2 ^ 64 ∧
    (∀ i, R ≤ i → i < R + amount →
      FreePage kernelTree s k (searchStart (kernelPagemap k) executable).toNat i) ∧
    MappedRange k s (searchStart (kernelPagemap k) executable) (R + count)

theorem searchStart_aligned (k : Frame) (exec : Bool) :
    (searchStart (kernelPagemap k) exec).toNat % 4096 = 0 := by
  cases exec with
  | false => simp [searchStart, kernelPagemap]
  | true => simp [searchStart, kernelPagemap]

theorem KernelHalf.searchTable (h : KernelHalf k live s) (hv : live ≠ [] → Mapped k s v)
    (hc : s.searchTable k v = .ok (t, s')) : Stays k live s s' := by
  rw [Machine.searchTable] at hc
  split at hc
  · cases hc
    exact h.stays
  · exact h.findTableEnsure hv hc

variable {amount count : ℕ}

theorem KernelHalf.findContiguous (h : KernelHalf k live s) {exec : Bool}
    (hle : amount ≤ count) (hn : count ≤ amount + 1)
    (ho : live ≠ [] → FoundIn k s exec amount count)
    (hc : s.findContiguous (kernelPagemap k) amount exec = .ok (v, s')) :
    Stays k live s s' ∧ (live ≠ [] → MappedRange k s' v count) := by
  rcases Nat.eq_zero_or_pos amount with hz | hp
  · rw [Machine.findContiguous, if_pos hz] at hc
    cases hc
    refine ⟨h.stays, fun _ j hj => ?_⟩
    obtain rfl : j = 0 := by omega
    exact fun hv => absurd (by decide) hv
  have hc' := hc
  rw [Machine.findContiguous, if_neg (Nat.ne_of_gt hp)] at hc
  obtain ⟨⟨t, s1⟩, ht, hr⟩ := bind_eq_ok.mp hc
  obtain ⟨start, -, hu⟩ := bind_eq_ok.mp hr
  obtain ⟨-, rfl⟩ := Prod.mk.inj (Except.ok.inj hu)
  have hs : Stays k live s s1 := by
    refine h.searchTable (fun hl => ?_) ht
    obtain ⟨R, -, -, ha⟩ := ho hl
    have hh := ha 0 (by omega)
    rwa [Nat.mul_zero, BitVec.add_zero] at hh
  refine ⟨hs, fun hl j hj => hs.keeps hl _ ?_⟩
  obtain ⟨R, he, hfr, ha⟩ := ho hl
  have hi : (searchStart (kernelPagemap k) exec).toNat + 4096 * (R + amount) ≤
      (kernelPagemap k).vend.toNat := show _ ≤ 2 ^ 64 - 1 by omega
  obtain ⟨v', first, hf, hv', hfi⟩ := findContiguous_spec (fun _ => rfl) hp
    (searchStart_aligned k exec) hi hfr h.tree rfl ht
  obtain rfl : v' = v := (Prod.mk.inj (Except.ok.inj (hf.symm.trans hc'))).1
  have hpa := ha (first + j) (by omega)
  have hd : searchStart (kernelPagemap k) exec + ofNat 64 (4096 * (first + j)) =
      v' + ofNat 64 (4096 * j) := by
    rw [Nat.mul_add, ofNat_add, ← BitVec.add_assoc]
    congr 1
    rw [← BitVec.toNat_inj, hv', toNat_add, toNat_ofNat]
    omega
  rwa [hd] at hpa

/-- The pages of a call lie in slots that are present. -/
def Placed (k : Frame) (s : Machine) (fixed executable : Bool) (source : BitVec 64)
    (amount count : ℕ) : Prop :=
  if fixed then MappedRange k s source count else FoundIn k s executable amount count

variable {source : BitVec 64}

theorem KernelHalf.allocStart (h : KernelHalf k live s) {flags : BitVec 32}
    (hp : live ≠ [] → Placed k s (flags &&& pageFixed ≠ 0) (flags &&& pageExec ≠ 0) source amount
      amount)
    (hc : s.allocStart (kernelPagemap k) amount flags source = .ok (v, s')) :
    Stays k live s s' ∧ (live ≠ [] → MappedRange k s' v amount) := by
  rw [Machine.allocStart] at hc
  by_cases hf : flags &&& pageFixed ≠ 0
  · rw [if_pos hf] at hc
    cases hc
    refine ⟨h.stays, fun hl => ?_⟩
    have := hp hl
    rwa [Placed, if_pos (decide_eq_true hf)] at this
  rw [if_neg hf] at hc
  refine h.findContiguous le_rfl (Nat.le_succ _) (fun hl => ?_) hc
  have := hp hl
  rwa [Placed, if_neg (by simpa using hf)] at this

theorem KernelHalf.alloc (h : KernelHalf k live s) {flags : BitVec 32}
    (hp : live ≠ [] → Placed k s (flags &&& pageFixed ≠ 0) (flags &&& pageExec ≠ 0) source
      (ceiltopg64 bytes) (ceiltopg64 bytes))
    (hc : s.alloc (kernelPagemap k) bytes flags source = .ok (v, s')) : Stays k live s s' := by
  rw [Machine.alloc] at hc
  split_ifs at hc
  · cases hc
    exact h.stays
  obtain ⟨⟨start, s1⟩, hs, hr⟩ := bind_eq_ok.mp hc
  obtain ⟨h1, ha⟩ := h.allocStart hp hs
  dsimp only at hr
  split_ifs at hr
  obtain ⟨s2, hl, hu⟩ := bind_eq_ok.mp hr
  cases hu
  exact h1.trans (h1.half.allocLoop (kernelPagemap k) flags ha hl)

theorem Machine.physAllocRegion_eq_ok (h : s.physAllocRegion n = .ok (f, s')) :
    (∀ g ∈ region f n, g ∉ s.outstanding) ∧ s'.mem = s.mem ∧
      s'.outstanding = region f n ++ s.outstanding := by
  rw [physAllocRegion] at h
  split at h
  · cases h
  split_ifs at h with hn
  cases h
  exact ⟨hn, rfl, rfl⟩

theorem frameCount_eq (h : bytes.toNat + 4096 ≤ 2 ^ 31) :
    frameCount (toInt32 bytes.toNat) = ceiltopg64 bytes := by
  rw [toInt32_of_range (by omega) (by omega), frameCount, ceiltopg32, pageSize,
    toInt32_of_range (by omega) (by omega), Int.tdiv_eq_ediv_of_nonneg (by omega), toUInt32,
    ceiltopg64, toNat_add, toNat_ofNat]
  omega

theorem KernelHalf.allocContinuous (h : KernelHalf k live s) {flags : BitVec 32}
    (hb : bytes.toNat + 4096 ≤ 2 ^ 31)
    (hpl : live ≠ [] → Placed k s (flags &&& pageFixed ≠ 0) (flags &&& pageExec ≠ 0) source
      (ceiltopg64 bytes) (ceiltopg64 bytes))
    (hc : s.allocContinuous (kernelPagemap k) bytes flags source = .ok (v, s')) :
    Stays k live s s' := by
  rw [Machine.allocContinuous] at hc
  split_ifs at hc
  · cases hc
    exact h.stays
  obtain ⟨⟨start, s1⟩, hs, hr⟩ := bind_eq_ok.mp hc
  obtain ⟨⟨f, s2⟩, ha, hr⟩ := bind_eq_ok.mp hr
  obtain ⟨s3, hlo, hu⟩ := bind_eq_ok.mp hr
  cases hu
  obtain ⟨h1, hra⟩ := h.allocStart hpl hs
  obtain ⟨hn, hm, ho⟩ := physAllocRegion_eq_ok ha
  obtain ⟨h2, hp⟩ := h1.half.take hn hm ho
  rw [frameCount_eq hb] at hp
  refine (h1.trans h2).trans (h2.half.allocContinuousLoop (kernelPagemap k) flags
    (fun hl => h2.range hl (hra hl)) hp (nodup_region ?_) hlo)
  rw [ceiltopg64]
  have := (bytes + 4095#64).isLt
  omega

theorem KernelHalf.map (h : KernelHalf k live s)
    (hp : live ≠ [] → Placed k s (flags &&& 0x2000#16 ≠ 0) false source (ceiltopg64 bytes)
      (mapAmount bytes p))
    (hca : s.map (kernelPagemap k) bytes p flags source = .ok (v, s')) : Stays k live s s' := by
  obtain ⟨⟨start, s1⟩, hs, hr⟩ := bind_eq_ok.mp hca
  obtain ⟨s2, ho, hu⟩ := bind_eq_ok.mp hr
  cases hu
  have hc : ceiltopg64 bytes ≤ mapAmount bytes p ∧ mapAmount bytes p ≤ ceiltopg64 bytes + 1 := by
    rw [mapAmount]
    split_ifs
    · exact ⟨Nat.le_succ _, le_rfl⟩
    · exact ⟨le_rfl, Nat.le_succ _⟩
  obtain ⟨h1, ha⟩ : Stays k live s s1 ∧
      (live ≠ [] → MappedRange k s1 start (mapAmount bytes p)) := by
    rw [mapStart] at hs
    by_cases hf : flags &&& 0x2000#16 ≠ 0
    · rw [if_pos hf] at hs
      cases hs
      refine ⟨h.stays, fun hl => ?_⟩
      have := hp hl
      rwa [Placed, if_pos (decide_eq_true hf)] at this
    rw [if_neg hf] at hs
    refine h.findContiguous hc.1 hc.2 (fun hl => ?_) hs
    have := hp hl
    rwa [Placed, if_neg (by simpa using hf)] at this
  rw [mapPages] at ho
  split_ifs at ho
  · exact h1.trans (h1.half.mapLoop (kernelPagemap k) flags ha ho)
  · exact h1.trans (h1.half.mapLoop (kernelPagemap k) flags ha ho)

/-! ## Unmapping -/

section

variable (h : KernelHalf k live s)
include h

theorem KernelHalf.page_frame {n : PageNumber} (hbo : ¬ bootPath (pagePath n))
    (hn : kernelTree.entryAt s k n ≠ 0) (hno : kernelTree.entryAt s k n &&& pageNophys = 0) :
    kernelTree.tableAt s k (pagePath n) = some (frameOf (kernelTree.entryAt s k n)) ∧
      frameOf (kernelTree.entryAt s k n) ∉ live ∧
      ∀ q, q.length < 4 → kernelTree.tableAt s k q ≠ some (frameOf (kernelTree.entryAt s k n)) := by
  have ho : kernelTree.owned (pagePath n) (kernelTree.entryAt s k n) :=
    decide_eq_true ⟨hn, hno, hbo⟩
  have hp := View.tableAt_of_owned ho
  refine ⟨hp, fun hl => (h.spare _ hl).2 k rfl _ hp, fun q hq hf => ?_⟩
  obtain rfl := h.tree.separated.eq_of_tableAt rfl hf hp
  simp [pagePath, tablePath] at hq

section

variable (hbo : ¬ bootPath (pagePath (pageOf v)))
include hbo

theorem KernelHalf.scrub :
    Stays k live s (s.scrub k v) ∧ ∀ f, Private k live s f → Private k live (s.scrub k v) f := by
  rw [Machine.scrub]
  split_ifs with hr
  · rw [rawofInternal_eq kernelTree s k rfl] at hr ⊢
    obtain ⟨-, hl, ht⟩ := h.page_frame hbo hr.1 hr.2.2
    rw [frameOf_and_memPageMask]
    exact h.fill hl ht fun _ => 0x5A#64
  · exact ⟨h.stays, fun f hf => hf⟩

theorem KernelHalf.unassign (hv : live ≠ [] → Mapped k s v)
    (hc : s.unassign (kernelPagemap k) v = .ok (addr, s')) :
    Stays k live s s' ∧ (∀ f, Private k live s f → Private k live s' f) ∧
      (addr ≠ 0 → Private k live s' (frameOf addr)) := by
  have hn : ∀ {p}, ¬ kernelTree.owned p 0 := fun ho => by
    rw [kernelTree.owned_zero] at ho
    cases ho
  obtain ⟨hs, ha⟩ := unassign_spec h.tree (Set.mem_singleton k) rfl hc
  have hro : RootMarked k v s s' := by
    rw [Machine.unassign] at hc
    split_ifs at hc
    obtain ⟨⟨t, s1⟩, hi, he⟩ := bind_eq_ok.mp hc
    cases he
    exact (findTableEnsure_root h.tree hi).setPage (findTableEnsure_spec h.tree rfl rfl hi) _ _
  obtain ⟨ht, hpr⟩ := h.pageSet hv hs hro fun ho => absurd ho hn
  refine ⟨ht, fun f hf => hpr f hf fun ho => absurd ho hn, fun hne => ?_⟩
  rw [show (kernelPagemap k).pageRoot = k from rfl] at ha
  split_ifs at ha with hno
  · exact absurd ha hne
  have hen : kernelTree.entryAt s k (pageOf v) ≠ 0 := by
    intro hz
    refine hne ?_
    rw [ha, hz]
    exact BitVec.zero_and
  obtain ⟨hpa, hl, -⟩ := h.page_frame hbo hen (not_not.mp hno)
  rw [ha, frameOf_and_memPageMask]
  have hu := h.tree.outstanding _ rfl _ _ hpa
  refine ⟨⟨hs.outstanding hu, fun r hr p hp => ?_⟩, hl⟩
  rw [Set.mem_singleton_iff.mp hr] at hp
  rcases hs.reached k rfl p _ hp with hold | hw | ⟨ho, -⟩
  · -- the page itself was the only way to its frame, and its entry is gone
    obtain rfl := h.tree.separated.eq_of_tableAt rfl hold hpa
    have hz : kernelTree.entryAt s' k (pageOf v) = 0 := by
      rw [hs.entries k rfl, if_pos ⟨rfl, rfl⟩]
    have hg := View.tableAt_pagePath kernelTree s' k (pageOf v)
    rw [hz, if_neg hn] at hg
    exact Option.some_ne_none _ (hp.symm.trans hg)
  · exact hw hu
  · exact hn ho

end

end

/-- No page from an address on is one that the boot code has mapped. -/
def NoBootPage (v : BitVec 64) (n : ℕ) : Prop :=
  ∀ j < n, ¬ bootPath (pagePath (pageOf (v + BitVec.ofNat 64 (4096 * j))))

theorem NoBootPage.head (h : NoBootPage v (n + 1)) : ¬ bootPath (pagePath (pageOf v)) := by
  have := h 0 n.succ_pos
  rwa [Nat.mul_zero, BitVec.add_zero] at this

theorem NoBootPage.tail (h : NoBootPage v (n + 1)) : NoBootPage (v + 4096#64) n := by
  intro j hj
  rw [add_page]
  exact h (j + 1) (Nat.succ_lt_succ hj)

theorem KernelHalf.freeLoop (h : KernelHalf k live s) (hbo : NoBootPage v n)
    (hv : live ≠ [] → MappedRange k s v n) {buff : List (BitVec 64)}
    (hb : ∀ a ∈ buff, Private k live s (frameOf a))
    (hc : Machine.freeLoop (kernelPagemap k) n s v buff = .ok s') : Stays k live s s' := by
  induction n generalizing s v buff with
  | zero => exact h.freePhys hb hc
  | succ n ih =>
    obtain ⟨⟨addr, s1⟩, hu, hr⟩ := bind_eq_ok.mp hc
    obtain ⟨h₀, hpr₀⟩ := h.scrub hbo.head
    obtain ⟨h1, hpr1, hd⟩ := h₀.half.unassign hbo.head (fun hl => h₀.keeps hl _ (hv hl).head) hu
    have h₀₁ := h₀.trans h1
    have hv1 := fun hl => h₀₁.range hl (hv hl).tail
    have hold : ∀ a ∈ buff, Private k live s1 (frameOf a) := fun a ha =>
      hpr1 _ (hpr₀ _ (hb a ha))
    dsimp only at hr
    by_cases hz : addr = 0
    · rw [if_pos hz] at hr
      exact h₀₁.trans (ih h₀₁.half hbo.tail hv1 hold hr)
    have hn : ∀ a ∈ buff ++ [addr], Private k live s1 (frameOf a) := by
      intro a ha
      rcases mem_append.mp ha with ha | ha
      · exact hold a ha
      · exact mem_singleton.mp ha ▸ hd hz
    rw [if_neg hz] at hr
    split_ifs at hr
    · obtain ⟨s2, hf, ho⟩ := bind_eq_ok.mp hr
      have h2 := h₀₁.trans (h₀₁.half.freePhys hn hf)
      exact h2.trans (ih h2.half hbo.tail (fun hl => h2.range hl (hv hl).tail)
        (forall_mem_nil _) ho)
    · exact h₀₁.trans (ih h₀₁.half hbo.tail hv1 hn hr)

/-! ## Creating -/

theorem KernelHalf.create (h : KernelHalf k live s) (hc : s.create k = .ok (root, s')) :
    KernelHalf k (live ++ [root]) s' := by
  obtain ⟨⟨g, s1⟩, ha, hp⟩ := bind_eq_ok.mp hc
  obtain ⟨rfl, rfl⟩ := Prod.mk.inj (Except.ok.inj hp)
  obtain ⟨h1, hg⟩ := h.physAlloc ha
  obtain ⟨h2, hr⟩ := h1.half.fill_private hg fun i => if i < 256#9 then 0 else s1.mem k i
  have hk : k ≠ g := by
    rintro rfl
    exact hg.1.2 k rfl [] rfl
  refine ⟨h2.half.tree, fun f hf => ?_, fun f hf i hi => ?_⟩
  · rcases mem_append.mp hf with hf | hf
    · exact h2.half.spare f hf
    · exact mem_singleton.mp hf ▸ (hr g hg).1
  rcases mem_append.mp hf with hf | hf
  · exact h2.half.shared f hf i hi
  obtain rfl := mem_singleton.mp hf
  rw [mem_fill, update_self, update_of_ne hk, if_neg hi]
  exact SameTable.refl _

end AexKernel.Mem
