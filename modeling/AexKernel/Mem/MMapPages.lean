import AexKernel.Mem.MMap

/-! # What mapping and freeing do to pages and frames

Each loop over pages rewrites the pages of one range and no other (`Rewrites`). -/

namespace AexKernel.Mem

open Library Machine Nat
open Function (update update_of_ne update_self)

/-! ## Ranges of pages -/

def OnPages (v : BitVec 64) (n : ℕ) (pg : PageNumber) : Prop := ∃ k < n, pg = pageOf (pageAt v k)

/-- The pages of a range have got entries of a kind, and no other page has changed. -/
structure Rewrites (Q : Entry → Prop) (v : BitVec 64) (n : ℕ) (m m' : PageMap) : Prop where
  inside : ∀ pg, OnPages v n pg → Q (m' pg)
  outside : ∀ pg, ¬ OnPages v n pg → m' pg = m pg

variable {v : BitVec 64} {n : ℕ} {m m' : PageMap} {Q : Entry → Prop}

@[simp] theorem pageAt_zero (v : BitVec 64) : pageAt v 0 = v := BitVec.add_zero v

theorem pageAt_succ (v : BitVec 64) (k : ℕ) : pageAt v (k + 1) = pageAt (v + 4096#64) k := by
  apply BitVec.eq_of_toNat_eq
  simp only [pageAt, BitVec.toNat_add, BitVec.toNat_ofNat]
  omega

variable {pg : PageNumber}

theorem onPages_succ : OnPages v (n + 1) pg ↔ pg = pageOf v ∨ OnPages (v + 4096#64) n pg := by
  constructor
  · rintro ⟨k, hk, rfl⟩
    cases k with
    | zero => exact .inl (by rw [pageAt_zero])
    | succ k => exact .inr ⟨k, lt_of_succ_lt_succ hk, by rw [pageAt_succ]⟩
  · rintro (rfl | ⟨k, hk, rfl⟩)
    · exact ⟨0, succ_pos n, by rw [pageAt_zero]⟩
    · exact ⟨k + 1, succ_lt_succ hk, by rw [pageAt_succ]⟩

theorem not_onPages_zero : ¬ OnPages v 0 pg := by
  rintro ⟨k, hk, -⟩
  exact Nat.not_lt_zero k hk

theorem onPages_one : OnPages v 1 pg ↔ pg = pageOf v := by
  rw [onPages_succ, or_iff_left not_onPages_zero]

theorem Rewrites.zero : Rewrites Q v 0 m m :=
  ⟨fun _ h => absurd h not_onPages_zero, fun _ _ => rfl⟩

variable {e : Entry}

theorem Rewrites.cons (he : Q e) (h : Rewrites Q (v + 4096#64) n (update m (pageOf v) e) m') :
    Rewrites Q v (n + 1) m m' := by
  constructor
  · intro pg hp
    by_cases hr : OnPages (v + 4096#64) n pg
    · exact h.inside pg hr
    obtain rfl := (onPages_succ.mp hp).resolve_right hr
    rw [h.outside _ hr, update_self]
    exact he
  · intro pg hp
    rw [onPages_succ, not_or] at hp
    rw [h.outside pg hp.2, update_of_ne hp.1]

variable {len stride u : BitVec 64}

theorem ceiltopg64_eq (h : len.toNat + 4095 < 2 ^ 64) :
    ceiltopg64 len = (len.toNat + 4095) / 4096 := by
  rw [ceiltopg64, BitVec.toNat_add]
  simp only [BitVec.reduceToNat]
  omega

theorem ceiltopg64_page : ceiltopg64 4096 = 1 := by decide

theorem assign_eq (m : PageMap) (v a : BitVec 64) (flags : BitVec 16) :
    m.assign v a flags = update m (pageOf v) ((a &&& memPageMask) ||| flags.setWidth 64) := rfl

/-! ## Kinds of entries -/

def IsPresent (e : Entry) : Prop := e &&& pagePresent ≠ 0

def IsNophys (e : Entry) : Prop := e &&& pageNophys ≠ 0

theorem IsPresent.ne_zero (h : IsPresent e) : e ≠ 0 := by
  rintro rfl
  exact h BitVec.zero_and

theorem IsNophys.ne_zero (h : IsNophys e) : e ≠ 0 := by
  rintro rfl
  exact h BitVec.zero_and

theorem mapFlags_present (map : Pagemap) {flags : BitVec 16} (h : flags &&& 0x4000#16 = 0)
    (a : Entry) : IsPresent (a ||| (mapFlags map flags).setWidth 64) := by
  have hb : (flags ||| 0x201#16) &&& 0x4000#16 = 0 := by
    rw [BitVec.and_or_distrib_right, h]
    decide
  refine ne_zero_of_getLsbD (i := 0) ?_ rfl
  rw [mapFlags, if_neg (not_not.mpr hb)]
  simp

/-! ## Mapping -/

namespace MMapSpace

variable {s s' : MMapSpace} {map : Pagemap} {flags : BitVec 16}

theorem mapLoop_spec (hQ : ∀ a : Entry, Q (a ||| flags.setWidth 64)) (n : ℕ) (m : PageMap)
    (v a : BitVec 64) : Rewrites Q v n m (mapLoop flags stride n m v a) := by
  induction n generalizing m v a with
  | zero => exact .zero
  | succ n ih => exact .cons (hQ _) (ih _ _ _)

variable {bytes a : BitVec 64}

theorem mapAt_pages (hQ : ∀ e : Entry, Q (e ||| (mapFlags map flags).setWidth 64)) :
    Rewrites Q v (mapAmount bytes a) s.pages (mapAt s map bytes a flags v).2.pages := by
  rw [mapAt]
  dsimp only
  split_ifs
  · exact mapLoop_spec hQ _ _ _ _
  · exact mapLoop_spec hQ _ _ _ _

theorem mapAt_addr (ha : a &&& 0xFFF#64 = 0) : (mapAt s map bytes a flags v).1 = v := by
  rw [mapAt]
  dsimp only
  rw [ha]
  exact BitVec.add_zero v

theorem mapAmount_aligned (ha : a &&& 0xFFF#64 = 0) : mapAmount bytes a = ceiltopg64 bytes := by
  rw [mapAmount, if_neg (not_not.mpr ha)]

theorem paddrof_aligned (m : PageMap) (hv : v.toNat % 4096 = 0) : m.paddrof v &&& 0xFFF#64 = 0 := by
  apply BitVec.eq_of_toNat_eq
  rw [toNat_and_fff, PageMap.paddrof_eq]
  split_ifs
  · rfl
  rw [PageMap.toNat_phys]
  change _ = 0
  omega

/-! ## Free pages of the kernel half -/

def KernelFree (k : ℕ) (m : PageMap) : Prop :=
  ∃ l : List (BitVec 64), k ≤ l.length ∧ (l.map pageOf).Nodup ∧
    ∀ v ∈ l, Room (Machine.kernelPagemap 0) m v 1

variable {k : ℕ}

theorem KernelFree.room (h : KernelFree (k + 1) m) : ∃ v, Room (kernelPagemap 0) m v 1 := by
  obtain ⟨l, hl, -, hr⟩ := h
  cases l with
  | nil => cases hl
  | cons v rest => exact ⟨v, hr v List.mem_cons_self⟩

theorem KernelFree.of_update (h : KernelFree (k + 1) m) (hm : ∀ pg', pg' ≠ pg → m' pg' = m pg') :
    KernelFree k m' := by
  obtain ⟨l, hl, hn, hr⟩ := h
  refine ⟨l.filter (fun v => !(pageOf v == pg)), ?_, ?_, ?_⟩
  · -- at most one address of the list has the page
    have ho : (l.filter fun v => pageOf v == pg).length ≤ 1 := by
      rw [← List.countP_eq_length_filter]
      have hc := List.nodup_iff_count_le_one.mp hn pg
      rwa [List.count, List.countP_map] at hc
    have hs := List.length_eq_length_filter_add (l := l) fun v => pageOf v == pg
    omega
  · exact hn.sublist (List.filter_sublist.map pageOf)
  intro v hv
  obtain ⟨hv, he⟩ := List.mem_filter.mp hv
  have hf := hr v hv
  refine ⟨hf.aligned, hf.low, hf.high, fun k hk => ?_⟩
  obtain rfl := lt_one_iff.mp hk
  have hp : pageOf v ≠ pg := by simpa using he
  rw [pageAt_zero, hm _ hp, ← hf.free 0 hk, pageAt_zero]

variable {start : BitVec 64}

theorem KernelFree.mapLoop (n : ℕ) (h : KernelFree (n + k) m) :
    KernelFree k (mapLoop flags stride n m v a) := by
  induction n generalizing m v a with
  | zero =>
    rw [Nat.zero_add] at h
    exact h
  | succ n ih =>
    rw [succ_add] at h
    exact ih (h.of_update fun pg' hn => update_of_ne hn _ _)

theorem KernelFree.mapAt (h : KernelFree (mapAmount bytes a + k) s.pages) :
    KernelFree k (mapAt s map bytes a flags v).2.pages := by
  rw [MMapSpace.mapAt]
  dsimp only
  split_ifs
  · exact h.mapLoop _
  · exact h.mapLoop _

/-! ## Taking frames -/

/-- Frames have been taken from `Phys`, and the regions have not changed. -/
structure Takes (frames : List Frame) (s s' : MMapSpace) : Prop where
  regions : s'.regions = s.regions
  outstanding : s'.outstanding.Perm (frames ++ s.outstanding)
  fresh : ∀ f ∈ frames, f ∉ s.outstanding
  nodup : frames.Nodup
  nonzero : ∀ f ∈ frames, f ≠ 0

theorem Takes.nil : Takes [] s s :=
  ⟨rfl, .refl _, by simp, List.nodup_nil, by simp⟩

variable {frames frames' l : List Frame}

theorem Takes.append {t : MMapSpace} (h : Takes frames s t) (h' : Takes frames' t s') :
    Takes (frames ++ frames') s s' := by
  have hold : ∀ f ∈ frames', f ∉ frames ∧ f ∉ s.outstanding := by
    intro f hf
    have hr := h'.fresh f hf
    rw [h.outstanding.mem_iff, List.mem_append, not_or] at hr
    exact hr
  refine ⟨h'.regions.trans h.regions, ?_, ?_, ?_, ?_⟩
  · calc s'.outstanding
        |>.Perm (frames' ++ t.outstanding) := h'.outstanding
      _ |>.Perm (frames' ++ (frames ++ s.outstanding)) := h.outstanding.append_left _
      _ |>.Perm (frames ++ frames' ++ s.outstanding) := by
        rw [← List.append_assoc]
        exact List.perm_append_comm.append_right _
  · intro f hf
    rcases List.mem_append.mp hf with hf | hf
    · exact h.fresh f hf
    · exact (hold f hf).2
  · exact h.nodup.append h'.nodup fun f hf hf' => (hold f hf').1 hf
  · intro f hf
    rcases List.mem_append.mp hf with hf | hf
    · exact h.nonzero f hf
    · exact h'.nonzero f hf

/-- What `map` of an aligned physical address does. -/
structure Mapped (Q : Entry → Prop) (bytes v start : BitVec 64) (s s' : MMapSpace) : Prop where
  start : start = v
  takes : Takes [] s s'
  pages : Rewrites Q v (ceiltopg64 bytes) s.pages s'.pages
  kernelFree : ∀ k, KernelFree (ceiltopg64 bytes + k) s.pages → KernelFree k s'.pages

theorem mapAt_mapped (h : mapAt s map bytes a flags v = (start, s')) (ha : a &&& 0xFFF#64 = 0)
    (hQ : ∀ e : Entry, Q (e ||| (mapFlags map flags).setWidth 64)) :
    Mapped Q bytes v start s s' := by
  have hs : (mapAt s map bytes a flags v).1 = start := by rw [h]
  have hs' : (mapAt s map bytes a flags v).2 = s' := by rw [h]
  refine ⟨hs ▸ mapAt_addr ha, ?_, ?_, fun k hk => ?_⟩
  · rw [← hs']
    exact ⟨rfl, .refl _, by simp, List.nodup_nil, by simp⟩
  · rw [← hs', ← mapAmount_aligned ha]
    exact mapAt_pages hQ
  rw [← hs']
  rw [← mapAmount_aligned ha] at hk
  exact hk.mapAt

variable {f : Frame}

theorem physAlloc_spec (h : s.physAlloc = .ok (f, s')) : Takes [f] s s' ∧ s'.pages = s.pages := by
  rw [physAlloc] at h
  split at h
  · cases h
  next g rest hs =>
  split_ifs at h with ho
  cases h
  refine ⟨⟨rfl, .refl _, ?_, List.nodup_singleton _, ?_⟩, rfl⟩
  · simpa using ho
  · simpa using g.2

theorem allocLoop_spec (hQ : ∀ e : Entry, Q (e ||| flags.setWidth 64))
    (h : allocLoop flags n s v = .ok (frames, s')) :
    Takes frames s s' ∧ Rewrites Q v n s.pages s'.pages := by
  induction n generalizing s v frames with
  | zero =>
    cases h
    exact ⟨.nil, .zero⟩
  | succ n ih =>
    obtain ⟨⟨f, t⟩, ha, hr⟩ := bind_eq_ok.mp h
    obtain ⟨⟨later, t'⟩, ho, hp⟩ := bind_eq_ok.mp hr
    obtain ⟨rfl, rfl⟩ := Prod.mk.inj (Except.ok.inj hp)
    obtain ⟨ht, hpa⟩ := physAlloc_spec ha
    obtain ⟨hl, he⟩ := ih ho
    have hl' : Takes later t t' :=
      ⟨hl.regions, hl.outstanding, hl.fresh, hl.nodup, hl.nonzero⟩
    refine ⟨ht.append hl', .cons (hQ (frameAddr f &&& memPageMask)) ?_⟩
    rw [← hpa]
    exact he

theorem alloc_spec {find : PageMap → ℕ → BitVec 64} {aflags : BitVec 32} (hb : bytes ≠ 0)
    (h : s.alloc map find bytes aflags = .ok (v, frames, s')) :
    v = find s.pages (ceiltopg64 bytes) ∧ v ≠ 0 ∧ Takes frames s s' ∧
      Rewrites IsPresent v (ceiltopg64 bytes) s.pages s'.pages := by
  rw [alloc, if_neg hb] at h
  dsimp only at h
  split_ifs at h with hz
  obtain ⟨⟨taken, t⟩, hl, hp⟩ := bind_eq_ok.mp h
  obtain ⟨rfl, hr⟩ := Prod.mk.inj (Except.ok.inj hp)
  cases hr
  obtain ⟨ht, he⟩ :=
    allocLoop_spec (Q := IsPresent) (allocFlags_present map aflags) hl
  exact ⟨rfl, hz, ht, he⟩

/-! ## Buffers -/

/-- An address of the kernel half has a page of its own with a frame. -/
structure Backs (m : PageMap) (v : BitVec 64) (f : Frame) : Prop where
  aligned : v.toNat % 4096 = 0
  kernel : 0xFFFF800000000000 ≤ v.toNat
  entry : m (pageOf v) = frameAddr f ||| 3#64
  nonzero : f ≠ 0

theorem frameOf_or_three (f : Frame) : frameOf (frameAddr f ||| 3#64) = f := by
  rw [frameOf_or, frameOf_frameAddr]
  exact BitVec.or_zero

theorem frameAddr_or_three_nophys (f : Frame) : ¬ IsNophys (frameAddr f ||| 3#64) := by
  rw [IsNophys, not_not, pageNophys, BitVec.and_or_distrib_right]
  have hl : frameAddr f &&& 0x200#64 = 0 := by
    apply BitVec.eq_of_getLsbD_eq
    intro i hi
    rw [BitVec.getLsbD_and, frameAddr, BitVec.getLsbD_shiftLeft]
    by_cases h : i < 12
    · simp [h]
    have hb : (0x200#64).getLsbD i = false := by
      rw [BitVec.getLsbD_ofNat]
      have : testBit 512 i = false := by
        apply testBit_lt_two_pow
        calc 512 < 2 ^ 12 := by decide
          _ ≤ 2 ^ i := Nat.pow_le_pow_right (by decide) (by omega)
      simp [this]
    simp [hb]
  rw [hl]
  decide

theorem Backs.pageOf_ne {f g : Frame} (h : Backs m v f) (h' : Backs m u g) (hn : f ≠ g) :
    pageOf v ≠ pageOf u := by
  intro he
  apply hn
  rw [← frameOf_or_three f, ← h.entry, he, h'.entry, frameOf_or_three]

theorem Backs.not_nophys (h : Backs m v f) : ¬ IsNophys (m (pageOf v)) := by
  rw [h.entry]
  exact frameAddr_or_three_nophys f

theorem Backs.entry_ne_zero (h : Backs m v f) : m (pageOf v) ≠ 0 := by
  intro hz
  apply h.nonzero
  rw [← frameOf_or_three f, ← h.entry, hz]
  rfl

theorem Backs.of_entry (h : Backs m v f) (he : m' (pageOf v) = m (pageOf v)) : Backs m' v f :=
  ⟨h.aligned, h.kernel, he.trans h.entry, h.nonzero⟩

variable {p : MMapProcess}

theorem allocBuffer_spec (hf : KernelFree (k + 1) s.pages)
    (h : s.alloc (kernelPagemap 0) p.findKernel 4096 2 = .ok (v, frames, s')) :
    ∃ f, frames = [f] ∧ Takes [f] s s' ∧ Backs s'.pages v f ∧ s.pages (pageOf v) = 0 ∧
      ∀ pg, pg ≠ pageOf v → s'.pages pg = s.pages pg := by
  rw [alloc, if_neg (by decide), ceiltopg64_page] at h
  dsimp only at h
  split_ifs at h
  have ho := p.foundKernel s.pages hf.room
  obtain ⟨⟨taken, t⟩, hl, hp⟩ := bind_eq_ok.mp h
  obtain ⟨rfl, hr⟩ := Prod.mk.inj (Except.ok.inj hp)
  cases hr
  obtain ⟨⟨f, t'⟩, ha, hr⟩ := bind_eq_ok.mp hl
  obtain ⟨ht, hpa⟩ := physAlloc_spec ha
  cases hr
  have he : (frameAddr f &&& memPageMask) |||
      (allocFlags (kernelPagemap 0) 2).setWidth 64 = frameAddr f ||| 3#64 := by
    rw [and_memPageMask, frameOf_frameAddr]
    rfl
  refine ⟨f, rfl, ⟨ht.regions, ht.outstanding, ht.fresh, ht.nodup, ht.nonzero⟩,
    ⟨ho.aligned, ho.low, ?_, ht.nonzero f List.mem_cons_self⟩, ?_, ?_⟩
  · show t'.pages.assign _ _ _ _ = _
    rw [assign_eq, update_self, he]
  · have hz := ho.free 0 Nat.one_pos
    rwa [pageAt_zero] at hz
  intro pg hg
  show t'.pages.assign _ _ _ _ = _
  rw [assign_eq, update_of_ne hg, hpa]

/-- The buffers of a new region. -/
structure MakesBuffers (cache : List CacheSlot) (frames : List Frame) (s s' : MMapSpace) :
    Prop where
  takes : Takes frames s s'
  backs : List.Forall₂ (fun slot f => Backs s'.pages slot.buffer f) cache frames
  unused : ∀ slot ∈ cache, slot.id = -1
  free : ∀ slot ∈ cache, s.pages (pageOf slot.buffer) = 0
  outside : ∀ pg, (∀ slot ∈ cache, pg ≠ pageOf slot.buffer) → s'.pages pg = s.pages pg

variable {cache : List CacheSlot}

theorem allocBuffers_spec (hf : KernelFree n s.pages)
    (h : allocBuffers p n s = .ok (cache, frames, s')) :
    cache.length = n ∧ MakesBuffers cache frames s s' := by
  induction n generalizing s cache frames with
  | zero =>
    obtain ⟨rfl, hr⟩ := Prod.mk.inj (Except.ok.inj h)
    cases hr
    exact ⟨rfl, .nil, .nil, by simp, by simp, fun _ _ => rfl⟩
  | succ n ih =>
    obtain ⟨⟨v, taken, t⟩, ha, hr⟩ := bind_eq_ok.mp h
    obtain ⟨⟨cache', frames', t'⟩, hlo, hu⟩ := bind_eq_ok.mp hr
    obtain ⟨rfl, hpa⟩ := Prod.mk.inj (Except.ok.inj hu)
    obtain ⟨rfl, rfl⟩ := Prod.mk.inj hpa
    obtain ⟨f, rfl, ht, hb, hz, ho⟩ := allocBuffer_spec hf ha
    obtain ⟨he, hm⟩ := ih (hf.of_update ho) hlo
    -- the page of the first buffer has an entry now, so that no later buffer is there
    have hl : ∀ slot ∈ cache', pageOf slot.buffer ≠ pageOf v := by
      intro slot hs hq
      apply hb.entry_ne_zero
      rw [← hq]
      exact hm.free slot hs
    refine ⟨by rw [List.length_cons, he], ht.append hm.takes, ?_, ?_, ?_, ?_⟩
    · refine .cons (hb.of_entry ?_) hm.backs
      exact hm.outside _ fun slot hs => (hl slot hs).symm
    · intro slot hs
      rcases List.mem_cons.mp hs with rfl | hs
      · rfl
      · exact hm.unused slot hs
    · intro slot hs
      rcases List.mem_cons.mp hs with rfl | hs
      · exact hz
      rw [← ho _ (hl slot hs)]
      exact hm.free slot hs
    · intro pg hp
      have hla : t'.pages pg = t.pages pg :=
        hm.outside pg fun slot hs => hp slot (List.mem_cons_of_mem _ hs)
      have hi : pg ≠ pageOf v := hp ⟨-1, v, 0⟩ List.mem_cons_self
      exact hla.trans (ho pg hi)

/-! ## Freeing -/

theorem freeLoop_spec (hr : ∀ k < n, map.vstart ≤ pageAt v k ∧ pageAt v k ≤ map.vend)
    (hp : ∀ pg, OnPages v n pg → IsNophys (s.pages pg) ∨ s.pages pg = 0) :
    ∃ m', freeLoop map n s v = .ok { s with pages := m' } ∧ Rewrites (· = 0) v n s.pages m' := by
  induction n generalizing s v with
  | zero => exact ⟨s.pages, rfl, .zero⟩
  | succ n ih =>
    have hf := hr 0 (succ_pos n)
    rw [pageAt_zero] at hf
    have hl : ¬ v < map.vstart := BitVec.not_lt.mpr hf.1
    have hh : ¬ map.vend < v := BitVec.not_lt.mpr hf.2
    have hz : ((s.pages.call (.unassign v)).1).getD 0 = 0 := by
      rcases hp _ (onPages_succ.mpr (.inl rfl)) with ho | hn
      · exact if_pos ho
      refine (if_neg ?_).trans ?_
      · rw [hn]
        decide
      · rw [hn]
        exact BitVec.zero_and
    have hr' : ∀ k < n, map.vstart ≤ pageAt (v + 4096#64) k ∧
        pageAt (v + 4096#64) k ≤ map.vend := by
      intro k hk
      rw [← pageAt_succ]
      exact hr (k + 1) (succ_lt_succ hk)
    have hp' : ∀ pg, OnPages (v + 4096#64) n pg →
        IsNophys (Function.update s.pages (pageOf v) 0 pg) ∨
          Function.update s.pages (pageOf v) 0 pg = 0 := by
      intro pg hg
      by_cases he : pg = pageOf v
      · exact .inr (by rw [he, update_self])
      rw [update_of_ne he]
      exact hp pg (onPages_succ.mpr (.inr hg))
    obtain ⟨m', hlo, hre⟩ :=
      ih (s := { s with pages := Function.update s.pages (pageOf v) 0 }) hr' hp'
    refine ⟨m', ?_, .cons rfl hre⟩
    rw [freeLoop, if_neg hl, if_neg hh]
    exact (if_pos hz).trans hlo

theorem freeBuffer_spec (hb : Backs s.pages v f) (ho : f ∈ s.outstanding) :
    s.free (kernelPagemap 0) v 4096 =
      .ok { s with pages := Function.update s.pages (pageOf v) 0,
                   outstanding := s.outstanding.filter (· ≠ f) } := by
  have hl : ¬ v < (kernelPagemap 0).vstart := by
    rw [BitVec.lt_def]
    exact Nat.not_lt.mpr hb.kernel
  have hh : ¬ (kernelPagemap 0).vend < v := by
    have hv := v.isLt
    rw [BitVec.lt_def]
    change ¬ 0xFFFFFFFFFFFFFFFF < v.toNat
    omega
  have ha : ((s.pages.call (.unassign v)).1).getD 0 = frameAddr f := by
    refine (if_neg hb.not_nophys).trans ?_
    rw [← memPageMask, and_memPageMask, hb.entry, frameOf_or_three]
  have hn : frameAddr f ≠ 0 := by
    intro hz
    apply hb.nonzero
    rw [← frameOf_frameAddr f, hz]
    rfl
  rw [free, ceiltopg64_page, freeLoop, if_neg hl, if_neg hh]
  dsimp only
  rw [ha, if_neg hn, frameOf_frameAddr, physFree, if_pos ho]
  rfl

theorem perm_cons_filter (hl : l.Nodup) (hf : f ∈ l) : l.Perm (f :: l.filter (· ≠ f)) := by
  have he := hl.erase_eq_filter f
  have hp := List.perm_cons_erase hf
  rw [he] at hp
  refine hp.trans (.of_eq ?_)
  congr 2
  funext g
  rw [bne, beq_eq_decide, decide_not]

theorem forall₂_backs (h : List.Forall₂ (fun slot f => Backs m slot.buffer f) cache frames)
    (hm : ∀ slot ∈ cache, ∀ f ∈ frames, Backs m slot.buffer f → m' (pageOf slot.buffer) =
      m (pageOf slot.buffer)) :
    List.Forall₂ (fun slot f => Backs m' slot.buffer f) cache frames := by
  rw [List.forall₂_iff_zip] at h ⊢
  refine ⟨h.1, fun {slot f} he => ?_⟩
  obtain ⟨hs, hf⟩ := List.of_mem_zip he
  exact (h.2 he).of_entry (hm slot hs f hf (h.2 he))

theorem freeBuffers_spec
    (hb : List.Forall₂ (fun slot f => Backs s.pages slot.buffer f) cache frames)
    (hno : frames.Nodup) (hu : ∀ f ∈ frames, f ∈ s.outstanding) (hs : s.outstanding.Nodup) :
    ∃ s', s.freeBuffers cache = .ok s' ∧ s'.regions = s.regions ∧
      s.outstanding.Perm (frames ++ s'.outstanding) ∧
      (∀ slot ∈ cache, s'.pages (pageOf slot.buffer) = 0) ∧
      ∀ pg, (∀ slot ∈ cache, pg ≠ pageOf slot.buffer) → s'.pages pg = s.pages pg := by
  induction cache generalizing s frames with
  | nil =>
    obtain rfl := List.forall₂_nil_left_iff.mp hb
    exact ⟨s, rfl, rfl, .refl _, by simp, fun _ _ => rfl⟩
  | cons slot cache ih =>
    obtain ⟨f, rest, hi, hr, rfl⟩ := List.forall₂_cons_left_iff.mp hb
    obtain ⟨hn, hno⟩ := List.nodup_cons.mp hno
    have hf : f ∈ s.outstanding := hu f List.mem_cons_self
    -- the other buffers have other frames, and so other pages
    have hot : List.Forall₂ (fun slot' g =>
        Backs (Function.update s.pages (pageOf slot.buffer) 0) slot'.buffer g) cache rest := by
      refine forall₂_backs hr fun slot' hs' g hg hb => ?_
      refine update_of_ne (hb.pageOf_ne hi ?_) _ _
      rintro rfl
      exact hn hg
    have ho' : ∀ g ∈ rest, g ∈ s.outstanding.filter (· ≠ f) := by
      intro g hg
      refine List.mem_filter.mpr ⟨hu g (List.mem_cons_of_mem _ hg), decide_eq_true ?_⟩
      rintro rfl
      exact hn hg
    obtain ⟨s', hfr, hre, hpe, hz, ho⟩ := ih
      (s := { s with pages := Function.update s.pages (pageOf slot.buffer) 0,
                     outstanding := s.outstanding.filter (· ≠ f) })
      hot hno ho' (hs.filter _)
    refine ⟨s', ?_, hre, ?_, ?_, ?_⟩
    · rw [freeBuffers, List.foldlM_cons, freeBuffer_spec hi hf]
      exact hfr
    · exact (perm_cons_filter hs hf).trans (hpe.cons f)
    · intro slot' hs'
      by_cases hm : ∃ t ∈ cache, pageOf slot'.buffer = pageOf t.buffer
      · obtain ⟨t, ht, he⟩ := hm
        rw [he]
        exact hz t ht
      rw [ho _ fun t ht he => hm ⟨t, ht, he⟩]
      obtain rfl : slot' = slot := by
        rcases List.mem_cons.mp hs' with h | h
        · exact h
        · exact absurd ⟨slot', h, rfl⟩ hm
      exact update_self _ _ _
    · intro pg hp
      rw [ho pg fun t ht => hp t (List.mem_cons_of_mem _ ht)]
      exact update_of_ne (hp slot List.mem_cons_self) _ _

end MMapSpace

end AexKernel.Mem
