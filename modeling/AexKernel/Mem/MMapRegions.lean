import AexKernel.Mem.MMapPages

/-! # The regions of a process in every run

Each region keeps its own pages and frames (`Intact`), and no two regions share any (`Sound`). -/

namespace AexKernel.Mem

open Library List LazyVector MMapSpace
open CacheSlot (buffer)

/-! ## Pages of a region -/

namespace MMapRegion

def OnRange (r : MMapRegion) (pg : PageNumber) : Prop := OnPages r.start (ceiltopg64 r.len) pg

/-- `cache`. -/
def cache (r : MMapRegion) : List CacheSlot :=
  match r.cls with
  | .plain => []
  | .fileBacked _ cache => cache

/-- The page is one of the region's address range or of its buffers. -/
def Uses (r : MMapRegion) (pg : PageNumber) : Prop :=
  r.OnRange pg ∨ ∃ slot ∈ r.cache, pg = pageOf slot.buffer

end MMapRegion

def RegionClass.Kind : RegionClass → Entry → Prop
  | .plain => IsPresent
  | .fileBacked _ _ => IsNophys

/-- Where a region lies. -/
structure RegionPlaced (p : MMapProcess) (r : MMapRegion) : Prop where
  short : r.len.toNat + 4095 < 2 ^ 64
  empty : r.len = 0 → r.start = 0
  aligned : r.start.toNat % 4096 = 0
  low : r.len ≠ 0 → p.pagemap.vstart.toNat ≤ r.start.toNat
  high : r.len ≠ 0 → r.start.toNat + 4096 * ceiltopg64 r.len ≤ p.pagemap.vend.toNat + 1

/-- The slots of a file's region. -/
structure Cached (m : PageMap) (r : MMapRegion) (ptr : ℕ) (cache : List CacheSlot) : Prop where
  length : cache.length = 8
  ptr_lt : ptr < 8
  backs : List.Forall₂ (fun slot f => MMapSpace.Backs m slot.buffer f) cache r.obtained
  referenced : ∀ slot ∈ cache, slot.id ≠ -1 → r.OnRange (pageOf slot.referenced)

/-- A region has its pages and frames. -/
structure Intact (p : MMapProcess) (s : MMapSpace) (r : MMapRegion) : Prop where
  placed : RegionPlaced p r
  range : ∀ pg, r.OnRange pg → r.cls.Kind (s.pages pg)
  frames : ∀ f ∈ r.obtained, f ∈ s.outstanding
  nodup : r.obtained.Nodup
  cached : ∀ ptr cache, r.cls = .fileBacked ptr cache → Cached s.pages r ptr cache
  bare : r.cls = .plain → r.len = 0 → r.obtained = []

/-- Two regions share no page and no frame. -/
structure Apart (r t : MMapRegion) : Prop where
  pages : ∀ pg, r.Uses pg → ¬ t.Uses pg
  frames : ∀ f ∈ r.obtained, f ∉ t.obtained

theorem Apart.symm {r t : MMapRegion} (h : Apart r t) : Apart t r :=
  ⟨fun pg ht hr => h.pages pg hr ht, fun f ht hr => h.frames f hr ht⟩

/-- Every region has its pages and frames, and no two share any. -/
structure MMapSpace.Sound (p : MMapProcess) (s : MMapSpace) : Prop where
  vector : s.regions.Sound
  nodup : s.outstanding.Nodup
  intact : ∀ i r, s.regions.get? i = some r → Intact p s r
  apart : ∀ i j r t, s.regions.get? i = some r → s.regions.get? j = some t → i ≠ j → Apart r t

variable {p : MMapProcess} {s s' : MMapSpace} {r t : MMapRegion} {addr : BitVec 64}
  {c : RegionClass}

theorem RegionClass.Kind.ne_zero {e : Entry} (h : c.Kind e) : e ≠ 0 := by
  cases c with
  | plain => exact IsPresent.ne_zero h
  | fileBacked ptr cache => exact IsNophys.ne_zero h

variable {slot : CacheSlot}

theorem mem_cache (h : slot ∈ r.cache) :
    ∃ ptr cache, r.cls = .fileBacked ptr cache ∧ slot ∈ cache := by
  rw [MMapRegion.cache] at h
  split at h
  · cases h
  · next ptr cache hc => exact ⟨ptr, cache, hc, h⟩

variable {ptr i n next : ℕ} {cache cache' : List CacheSlot}

theorem Cached.exists_backs {m : PageMap} (h : Cached m r ptr cache) (hs : slot ∈ cache) :
    ∃ f ∈ r.obtained, Backs m slot.buffer f := by
  obtain ⟨n, hn, rfl⟩ := getElem_of_mem hs
  have hn' : n < r.obtained.length := h.backs.length_eq ▸ hn
  refine ⟨r.obtained[n], getElem_mem hn', ?_⟩
  exact (forall₂_iff_get.mp h.backs).2 n hn hn'

variable {pg : PageNumber}

section

variable (h : Intact p s r)
include h

theorem Intact.ne_zero (hp : r.Uses pg) : s.pages pg ≠ 0 := by
  rcases hp with hr | ⟨slot, hs, rfl⟩
  · exact (h.range pg hr).ne_zero
  obtain ⟨ptr, cache, hc, hm⟩ := mem_cache hs
  obtain ⟨f, -, hb⟩ := (h.cached ptr cache hc).exists_backs hm
  exact hb.entry_ne_zero

theorem Intact.buffer_not_onRange (hc : r.cls = .fileBacked ptr cache) (hs : slot ∈ cache) :
    ¬ r.OnRange (pageOf slot.buffer) := by
  intro hr
  obtain ⟨f, -, hb⟩ := (h.cached ptr cache hc).exists_backs hs
  have hk := h.range _ hr
  rw [hc] at hk
  exact hb.not_nophys hk

theorem Intact.of_kept (hp : ∀ pg, r.Uses pg → s'.pages pg = s.pages pg)
    (hf : ∀ f ∈ r.obtained, f ∈ s'.outstanding) : Intact p s' r := by
  refine ⟨h.placed, ?_, hf, h.nodup, ?_, h.bare⟩
  · intro pg hg
    rw [hp pg (.inl hg)]
    exact h.range pg hg
  intro ptr cache hl
  have hc := h.cached ptr cache hl
  refine ⟨hc.length, hc.ptr_lt, ?_, hc.referenced⟩
  refine forall₂_backs hc.backs fun slot hs f _ _ => ?_
  refine hp _ (.inr ⟨slot, ?_, rfl⟩)
  rw [MMapRegion.cache, hl]
  exact hs

end

/-! ## Looking for a region -/

theorem contains_iff : r.contains addr ↔
    r.start.toNat ≤ addr.toNat ∧ addr.toNat < (r.start + r.len).toNat := by
  rw [MMapRegion.contains, decide_eq_true_iff, not_or, BitVec.lt_def, BitVec.le_def, not_lt, not_le]

section

variable (h : RegionPlaced p r)
include h

theorem RegionPlaced.toNat_end :
    (r.start + r.len).toNat = (r.start.toNat + r.len.toNat) % 2 ^ 64 ∧
      r.start.toNat + r.len.toNat ≤ 2 ^ 64 := by
  refine ⟨BitVec.toNat_add .., ?_⟩
  by_cases hl : r.len = 0
  · have hs := r.start.isLt
    rw [hl]
    change r.start.toNat + 0 ≤ _
    omega
  · have hh := h.high hl
    rw [ceiltopg64_eq h.short] at hh
    omega

theorem RegionPlaced.contains_start :
    r.contains r.start ↔ r.len ≠ 0 ∧ r.start.toNat + r.len.toNat < 2 ^ 64 := by
  obtain ⟨he, hle⟩ := h.toNat_end
  have hl : r.len ≠ 0 ↔ r.len.toNat ≠ 0 := by
    rw [ne_eq, ne_eq, ← BitVec.toNat_inj]
    rfl
  rw [contains_iff, he, hl]
  omega

theorem RegionPlaced.onRange (hc : r.contains addr) : r.OnRange (pageOf addr) := by
  obtain ⟨he, hle⟩ := h.toNat_end
  obtain ⟨hl, hh⟩ := contains_iff.mp hc
  have ha := h.aligned
  rw [he] at hh
  refine ⟨(addr.toNat - r.start.toNat) / 4096, ?_, ?_⟩
  · rw [ceiltopg64_eq h.short]
    omega
  apply BitVec.eq_of_toNat_eq
  rw [toNat_pageOf, toNat_pageOf, pageAt, BitVec.toNat_add, BitVec.toNat_ofNat]
  omega

theorem RegionPlaced.start_onRange (hl : r.len ≠ 0) : r.OnRange (pageOf r.start) := by
  refine ⟨0, ?_, by rw [pageAt_zero]⟩
  have hp : r.len.toNat ≠ 0 := fun hz => hl (BitVec.eq_of_toNat_eq hz)
  rw [ceiltopg64_eq h.short]
  omega

end

namespace MMapSpace

theorem findMmapRegion_some (h : s.findMmapRegion addr = some (i, r)) :
    s.regions.get? i = some r ∧ r.contains addr := by
  obtain ⟨place, hm, hp⟩ := exists_of_findSome?_eq_some h
  split at hp
  · next t ht =>
    split_ifs at hp with hc
    cases hp
    have hg := mem_zipIdx_iff_getElem?.mp hm
    refine ⟨?_, hc⟩
    rw [get?, if_neg (by omega), Int.toNat_natCast, hg, ht]
    rfl
  · cases hp

theorem findMmapRegion_none (h : s.findMmapRegion addr = none) {i : ℤ}
    (hi : s.regions.get? i = some r) : ¬ r.contains addr := by
  intro hc
  rw [get?] at hi
  split_ifs at hi with hn
  have hg : s.regions.array[i.toNat]? = some (some r) := Option.join_eq_some_iff.mp hi
  have hp := findSome?_eq_none_iff.mp h (some r, i.toNat) (mem_zipIdx_iff_getElem?.mpr hg)
  dsimp only at hp
  rw [if_pos hc] at hp
  cases hp

theorem Sound.index_eq (h : s.Sound p) {i j : ℤ} (hi : s.regions.get? i = some r)
    (hj : s.regions.get? j = some t) (hr : r.Uses pg) (ht : t.Uses pg) : i = j := by
  by_contra hn
  exact (h.apart i j r t hi hj hn).pages pg hr ht

/-! ## Regions come -/

/-- A region that is about to be pushed. -/
structure New (p : MMapProcess) (s u : MMapSpace) (r : MMapRegion) : Prop where
  takes : Takes r.obtained s u
  kept : ∀ pg, s.pages pg ≠ 0 → u.pages pg = s.pages pg
  intact : Intact p u r
  free : ∀ pg, r.Uses pg → s.pages pg = 0

variable {u : MMapSpace}

theorem push_eq_ok (hu : u.regions.Sound) (h : u.push r = .ok s') :
    s'.regions.Sound ∧ s'.pages = u.pages ∧ s'.outstanding = u.outstanding ∧
      ∃ i, u.regions.get? i = none ∧
        ∀ j, s'.regions.get? j = if j = i then some r else u.regions.get? j := by
  obtain ⟨i, regions, hp, hs, hl, hg⟩ := push_spec hu r
  rw [push, hp] at h
  cases h
  exact ⟨hs, rfl, rfl, i, hl.1.2, hg⟩

theorem New.apart (h : New p s u r) (ht : Intact p s t) : Apart r t :=
  ⟨fun pg hr hp => ht.ne_zero hp (h.free pg hr),
    fun f hf hf' => h.takes.fresh f hf (ht.frames f hf')⟩

theorem Sound.push (hs : s.Sound p) (h : New p s u r) (hpu : u.push r = .ok s') : s'.Sound p := by
  have hu : u.regions.Sound := by
    rw [h.takes.regions]
    exact hs.vector
  obtain ⟨hv, hp, ho, i, -, hg⟩ := push_eq_ok hu hpu
  rw [h.takes.regions] at hg
  have he : ∀ j t, s.regions.get? j = some t → Intact p s' t := by
    intro j t ht
    have hint := hs.intact j t ht
    refine hint.of_kept (fun pg hpg => ?_) fun f hf => ?_
    · rw [hp]
      exact h.kept pg (hint.ne_zero hpg)
    · rw [ho, h.takes.outstanding.mem_iff]
      exact mem_append_right _ (hint.frames f hf)
  refine ⟨hv, ?_, ?_, ?_⟩
  · rw [ho, h.takes.outstanding.nodup_iff]
    exact h.takes.nodup.append hs.nodup fun f hf hf' => h.takes.fresh f hf hf'
  · intro j t ht
    rw [hg] at ht
    split_ifs at ht
    · cases ht
      refine h.intact.of_kept (fun pg _ => by rw [hp]) fun f hf => ?_
      rw [ho]
      exact h.intact.frames f hf
    · exact he j t ht
  intro j k t t' ht ht' hn
  rw [hg] at ht ht'
  split_ifs at ht ht' with hj hk hk
  · exact absurd (hj.trans hk.symm) hn
  · cases ht
    exact h.apart (hs.intact k t' ht')
  · cases ht'
    exact (h.apart (hs.intact j t ht)).symm
  · exact hs.apart j k t t' ht ht' hn

variable {v len : BitVec 64} {frames : List Frame}

theorem placed_of_room (hsh : len.toNat + 4095 < 2 ^ 64) (he : len = 0 → v = 0)
    (hro : len ≠ 0 → Room p.pagemap s.pages v (ceiltopg64 len)) :
    RegionPlaced p ⟨v, len, c, frames⟩ := by
  refine ⟨hsh, he, ?_, fun hl => (hro hl).low, fun hl => (hro hl).high⟩
  by_cases hl : len = 0
  · rw [he hl]
    rfl
  · exact (hro hl).aligned

theorem free_of_room (hro : len ≠ 0 → Room p.pagemap s.pages v (ceiltopg64 len))
    (hp : OnPages v (ceiltopg64 len) pg) : s.pages pg = 0 := by
  obtain ⟨k, hk, rfl⟩ := hp
  by_cases hl : len = 0
  · have hn : ceiltopg64 len = 0 := by
      rw [hl]
      decide
    omega
  · exact (hro hl).free k hk

theorem New.plain (hsh : len.toNat + 4095 < 2 ^ 64) (he : len = 0 → v = 0 ∧ frames = [])
    (hro : len ≠ 0 → Room p.pagemap s.pages v (ceiltopg64 len)) (ht : Takes frames s u)
    (ha : Rewrites IsPresent v (ceiltopg64 len) s.pages u.pages) :
    New p s u ⟨v, len, .plain, frames⟩ := by
  refine ⟨ht, fun pg hp => ?_, ?_, fun pg hp => ?_⟩
  · exact ha.outside pg fun hr => hp (free_of_room hro hr)
  · refine ⟨placed_of_room hsh (fun h => (he h).1) hro, ha.inside, fun f hf => ?_,
      ht.nodup, ?_, fun _ h => (he h).2⟩
    swap
    · intro ptr cache hc
      cases hc
    rw [ht.outstanding.mem_iff]
    exact mem_append_left _ hf
  · rcases hp with hr | ⟨slot, hs, -⟩
    · exact free_of_room hro hr
    · cases hs

theorem New.fileBacked {u w : MMapSpace} (hsh : len.toNat + 4095 < 2 ^ 64) (hem : len = 0 → v = 0)
    (hro : len ≠ 0 → Room p.pagemap s.pages v (ceiltopg64 len)) (ht : Takes [] s u)
    (ha : Rewrites IsNophys v (ceiltopg64 len) s.pages u.pages) (hl : cache.length = 8)
    (hm : MakesBuffers cache frames u w) : New p s w ⟨v, len, .fileBacked 0 cache, frames⟩ := by
  have hk : ∀ pg, s.pages pg ≠ 0 → u.pages pg = s.pages pg := fun pg hp =>
    ha.outside pg fun hr => hp (free_of_room hro hr)
  -- the buffers are on pages that were free after the range had its entries
  have hla : ∀ pg, u.pages pg ≠ 0 → w.pages pg = u.pages pg := by
    intro pg hp
    refine hm.outside pg fun slot hs hq => hp ?_
    rw [hq]
    exact hm.free slot hs
  refine ⟨ht.append hm.takes, fun pg hp => ?_, ?_, fun pg hp => ?_⟩
  · rw [hla pg (by rw [hk pg hp]; exact hp)]
    exact hk pg hp
  · refine ⟨placed_of_room hsh hem hro, fun pg hp => ?_, fun f hf => ?_, hm.takes.nodup,
      fun ptr slots hc => ?_, fun hc => nomatch hc⟩
    · have hn : IsNophys (u.pages pg) := ha.inside pg hp
      rw [hla pg hn.ne_zero]
      exact hn
    · rw [hm.takes.outstanding.mem_iff]
      exact mem_append_left _ hf
    obtain ⟨rfl, rfl⟩ := RegionClass.fileBacked.inj hc
    exact ⟨hl, by decide, hm.backs, fun slot hs hi => absurd (hm.unused slot hs) hi⟩
  rcases hp with hr | ⟨slot, hs, rfl⟩
  · exact free_of_room hro hr
  by_contra he
  have hz := hm.free slot hs
  rw [hk _ he] at hz
  exact he hz

/-- A request for which there is room. -/
structure MMapRequest.Fits (p : MMapProcess) (s : MMapSpace) (q : MMapRequest) : Prop where
  short : q.len.toNat + 4095 < 2 ^ 64
  room : q.len ≠ 0 → ∃ v, Room p.pagemap s.pages v (ceiltopg64 q.len)
  buffers : KernelFree (ceiltopg64 q.len + 8) s.pages
  output : ∀ output limit dup, q.file = some (.terminal output limit, dup) → output.toNat % 4096 = 0

theorem aflags_arbitrary (p : MMapProcess) (prot : BitVec 32) :
    aflags p prot &&& 0x4000#16 = 0 := by
  rw [aflags]
  split_ifs <;> decide

section

variable (hsh : len.toNat + 4095 < 2 ^ 64)
include hsh

theorem ceiltopg64_pos (hl : len ≠ 0) : 0 < ceiltopg64 len := by
  have hp : len.toNat ≠ 0 := fun hz => hl (BitVec.eq_of_toNat_eq hz)
  rw [ceiltopg64_eq hsh]
  omega

theorem toNat_pageceil : (pageceil len).toNat = 4096 * ceiltopg64 len := by
  rw [ceiltopg64_eq hsh, pageceil, BitVec.toNat_mul, BitVec.toNat_udiv, BitVec.toNat_add]
  simp only [BitVec.reduceToNat]
  omega

theorem ceiltopg64_pageceil :
    (pageceil len).toNat + 4095 < 2 ^ 64 ∧ ceiltopg64 (pageceil len) = ceiltopg64 len := by
  have hn := toNat_pageceil hsh
  have hs' : (pageceil len).toNat + 4095 < 2 ^ 64 := by omega
  refine ⟨hs', ?_⟩
  rw [ceiltopg64_eq hs']
  omega

theorem room_found (hro : len ≠ 0 → ∃ v, Room p.pagemap s.pages v (ceiltopg64 len)) :
    (len = 0 → p.findContiguous s.pages (ceiltopg64 len) = 0) ∧
      (len ≠ 0 → Room p.pagemap s.pages (p.findContiguous s.pages (ceiltopg64 len))
        (ceiltopg64 len)) := by
  constructor
  · rintro rfl
    exact p.findContiguous_zero s.pages
  · intro hl
    exact p.found s.pages _ (ceiltopg64_pos hsh hl) (hro hl)

end

variable {prot id prevId : BitVec 32}

section

variable (hsh : len.toNat + 4095 < 2 ^ 64)
include hsh

section

variable (hro : len ≠ 0 → ∃ v, Room p.pagemap s.pages v (ceiltopg64 len))
include hro

theorem mmapAnonymous_spec (h : mmapAnonymous p s len (aflags p prot) = .ok (v, s')) :
    ∃ u r, New p s u r ∧ u.push r = .ok s' ∧ r.start = v := by
  obtain ⟨⟨w, frames, u⟩, ha, hr⟩ := bind_eq_ok.mp h
  obtain ⟨t, hp, hu⟩ := bind_eq_ok.mp hr
  cases hu
  refine ⟨u, _, ?_, hp, rfl⟩
  by_cases hl : len = 0
  · subst hl
    rw [alloc, if_pos rfl] at ha
    obtain ⟨rfl, hi⟩ := Prod.mk.inj (Except.ok.inj ha)
    cases hi
    exact .plain hsh (fun _ => ⟨rfl, rfl⟩) (fun hn => absurd rfl hn) .nil .zero
  · obtain ⟨rfl, -, ht, hpa⟩ := alloc_spec hl ha
    exact .plain hsh (fun hz => absurd hz hl) (room_found hsh hro).2 ht hpa

theorem mmapInode_spec (hb : KernelFree (ceiltopg64 len + 8) s.pages)
    (h : mmapInode p s len (aflags p prot) = .ok (v, s')) :
    ∃ u cache frames, New p s u ⟨v, len, .fileBacked 0 cache, frames⟩ ∧
      u.push ⟨v, len, .fileBacked 0 cache, frames⟩ = .ok s' := by
  obtain ⟨start, u, ha⟩ : ∃ start u, mapAt s p.pagemap len 0 (0x4000#16 ||| aflags p prot)
    (p.findContiguous s.pages (ceiltopg64 len)) = (start, u) := ⟨_, _, rfl⟩
  rw [mmapInode, ha] at h
  obtain ⟨⟨cache, frames, w⟩, hl, hr⟩ := bind_eq_ok.mp h
  obtain ⟨t, hp, hu⟩ := bind_eq_ok.mp hr
  cases hu
  refine ⟨w, cache, frames, ?_, hp⟩
  have hm := mapAt_mapped (Q := IsNophys) ha (by decide) (mapFlags_nophys _ _)
  obtain ⟨he, hma⟩ := allocBuffers_spec (hm.kernelFree 8 hb) hl
  obtain ⟨hz, hf⟩ := room_found hsh hro
  rw [hm.start]
  exact .fileBacked hsh hz hf hm.takes hm.pages he hma

end

end

variable {output a dst : BitVec 64}

theorem mmapTerminal_spec (hsh : len.toNat + 4095 < 2 ^ 64)
    (hro : len ≠ 0 → ∃ v, Room p.pagemap s.pages v (ceiltopg64 len))
    (ho : output.toNat % 4096 = 0) (h : mmapTerminal p s len (aflags p prot) output = .ok (v,
      s')) :
    ∃ u r, New p s u r ∧ u.push r = .ok s' ∧ r.start = v := by
  obtain ⟨start, u, ha⟩ : ∃ start u, mapAt s p.pagemap len (s.pages.paddrof output)
    (aflags p prot) (p.findContiguous s.pages (ceiltopg64 len)) = (start, u) := ⟨_, _, rfl⟩
  rw [mmapTerminal, ha] at h
  obtain ⟨t, hp, hu⟩ := bind_eq_ok.mp h
  cases hu
  refine ⟨u, _, ?_, hp, rfl⟩
  have hm := mapAt_mapped ha (paddrof_aligned s.pages ho)
    (mapFlags_present _ (aflags_arbitrary p prot))
  obtain ⟨hz, hf⟩ := room_found hsh hro
  rw [hm.start]
  exact .plain hsh (fun hl => ⟨hz hl, rfl⟩) hf hm.takes hm.pages

theorem mmap_cases {q : MMapRequest} {res : Except MMapError (BitVec 64)} (hq : q.Fits p s)
    (h : mmap p s q = .ok (res, s')) :
    ((∃ e, res = .error e) ∧ s' = s) ∨
      ∃ u r, New p s u r ∧ u.push r = .ok s' ∧ res = .ok r.start := by
  have hd : ∀ {x : Except Fault (BitVec 64 × MMapSpace)},
      (∀ v t, x = .ok (v, t) → ∃ u r, New p s u r ∧ u.push r = .ok t ∧ r.start = v) →
      (x >>= fun y => pure (Except.ok y.1, y.2)) = .ok (res, s') →
      ∃ u r, New p s u r ∧ u.push r = .ok s' ∧ res = .ok r.start := by
    intro x hx hb
    obtain ⟨⟨v, t⟩, hv, hu⟩ := bind_eq_ok.mp hb
    obtain ⟨rfl, rfl⟩ := Prod.mk.inj (Except.ok.inj hu)
    obtain ⟨u, r, hn, hp, rfl⟩ := hx v t hv
    exact ⟨u, r, hn, hp, rfl⟩
  have he : ∀ {e : MMapError}, Except.ok (.error e, s) = (.ok (res, s') : Except Fault _) →
      (∃ e, res = .error e) ∧ s' = s := by
    intro e heq
    cases heq
    exact ⟨⟨e, rfl⟩, rfl⟩
  rw [mmap] at h
  split at h
  · cases h
  split at h
  · exact .inr (hd (fun v t => mmapAnonymous_spec hq.short hq.room) h)
  split at h
  · exact .inl (he h)
  · exact .inl (he h)
  · exact .inl (he h)
  · refine .inr (hd (fun v t hi => ?_) h)
    obtain ⟨u, cache, frames, hn, hp⟩ := mmapInode_spec hq.short hq.room hq.buffers hi
    exact ⟨u, _, hn, hp, rfl⟩
  · next output limit hf =>
    split at h
    · exact .inl (he h)
    split at h
    · exact .inl (he h)
    obtain ⟨hsh, hc⟩ := ceiltopg64_pageceil hq.short
    refine .inr (hd (fun v t => mmapTerminal_spec hsh (fun hl => ?_)
      (hq.output output limit none hf)) h)
    rw [hc]
    apply hq.room
    intro hz
    rw [hz] at hl
    exact hl (by decide)

/-! ## Page faults -/

theorem findSlotLoop_lt {slot : Option ℕ} (hp : ptr < 8)
    (h : findSlotLoop cache id prevId n ptr = (slot, next)) :
    next < 8 ∧ ∀ k, slot = some k → k < 8 := by
  induction n generalizing ptr with
  | zero =>
    cases h
    exact ⟨hp, fun k hk => nomatch hk⟩
  | succ n ih =>
    obtain ⟨ptr', hp'⟩ : ∃ ptr', ptr' = if 8 ≤ ptr + 1 then 0 else ptr + 1 := ⟨_, rfl⟩
    have hl : ptr' < 8 := by
      rw [hp']
      split_ifs <;> omega
    rw [findSlotLoop, ← hp'] at h
    split_ifs at h
    · cases h
      exact ⟨hl, fun k hk => nomatch hk⟩
    · exact ih hl h
    cases h
    exact ⟨hl, fun k hk => Option.some.inj hk ▸ hp⟩

/-- The pages of a file's region have been pointed to other memory that they do not own. -/
structure Shows (r : MMapRegion) (s s' : MMapSpace) : Prop where
  regions : s'.regions = s.regions
  outstanding : s'.outstanding = s.outstanding
  range : ∀ pg, r.OnRange pg → IsNophys (s'.pages pg)
  outside : ∀ pg, ¬ r.OnRange pg → s'.pages pg = s.pages pg

theorem Shows.mapAt {flags : BitVec 16} (h : Shows r s u) (hv : r.OnRange (pageOf v))
    (ha : a &&& 0xFFF#64 = 0) : Shows r s (mapAt u p.pagemap 4096 a flags v).2 := by
  have hpa : Rewrites IsNophys v 1 u.pages
      (MMapSpace.mapAt u p.pagemap 4096 a flags v).2.pages := by
    rw [← ceiltopg64_page, ← mapAmount_aligned ha]
    exact mapAt_pages (mapFlags_nophys _ _)
  refine ⟨h.regions, h.outstanding, fun pg hp => ?_, fun pg hp => ?_⟩
  · by_cases he : OnPages v 1 pg
    · exact hpa.inside pg he
    rw [hpa.outside pg he]
    exact h.range pg hp
  · rw [hpa.outside pg fun he => hp (onPages_one.mp he ▸ hv)]
    exact h.outside pg hp

theorem intact_moved (h : Intact p s r) (hc : r.cls = .fileBacked ptr cache) (hsh : Shows r s u)
    (hb : cache'.map buffer = cache.map buffer) (hn : next < 8)
    (hl : ∀ slot ∈ cache', slot.id ≠ -1 → r.OnRange (pageOf slot.referenced)) :
    Intact p u { r with cls := .fileBacked next cache' } := by
  have ha := h.cached ptr cache hc
  refine ⟨⟨h.placed.short, h.placed.empty, h.placed.aligned, h.placed.low, h.placed.high⟩,
    hsh.range, fun f hf => ?_, h.nodup, fun ptr' slots he => ?_, fun hp => nomatch hp⟩
  · rw [hsh.outstanding]
    exact h.frames f hf
  obtain ⟨rfl, rfl⟩ := RegionClass.fileBacked.inj he
  refine ⟨?_, hn, ?_, hl⟩
  · rw [← ha.length, ← length_map buffer, hb, length_map]
  have hba : List.Forall₂ (fun slot f => Backs u.pages slot.buffer f) cache r.obtained :=
    forall₂_backs ha.backs fun slot hs _ _ _ =>
      hsh.outside _ (h.buffer_not_onRange hc hs)
  have hm : List.Forall₂ (Backs u.pages) (cache'.map buffer) r.obtained := by
    rw [hb]
    exact forall₂_map_left_iff.mpr hba
  exact forall₂_map_left_iff.mp hm

theorem get?_update (hs : s.regions.Sound) (hi : s.regions.get? i = some t) :
    (s.update i r).regions.Sound ∧
      ∀ j, (s.update i r).regions.get? j = if j = i then some r else s.regions.get? j := by
  have hp : s.regions.array[i]?.join = some t := by
    rw [get?, if_neg (by omega), Int.toNat_natCast] at hi
    exact hi
  have hl : i < s.regions.array.length := by
    by_contra hg
    rw [getElem?_eq_none (not_lt.mp hg)] at hp
    cases hp
  refine ⟨?_, ?_⟩
  · rw [LazyVector.Sound, update]
    dsimp only
    rw [countP_set_again hl (by rw [hp]; rfl)]
    exact hs
  · refine get?_of_places (Int.natCast_nonneg i) (some r) fun j => ?_
    rw [Int.toNat_natCast]
    exact join_getElem?_set hl (some r) j

theorem read_spec (h : Intact p s r) (hl : r.cls = .fileBacked ptr cache)
    (hd : r.OnRange (pageOf dst)) (offset : BitVec 64) :
    ∃ u next cache', read p s i r ptr cache dst offset =
        u.update i { r with cls := .fileBacked next cache' } ∧ Shows r s u ∧
      cache'.map buffer = cache.map buffer ∧
      Intact p u { r with cls := .fileBacked next cache' } := by
  have hc := h.cached ptr cache hl
  have hr : ∀ pg, r.OnRange pg → IsNophys (s.pages pg) := by
    intro pg hp
    have hk := h.range pg hp
    rwa [hl] at hk
  have hs : Shows r s s := ⟨rfl, rfl, hr, fun _ _ => rfl⟩
  obtain ⟨slot?, next, hf⟩ : ∃ slot? next,
    findSlot cache ptr ((offset / 4096#64).setWidth 32) = (slot?, next) := ⟨_, _, rfl⟩
  obtain ⟨he, ht⟩ := findSlotLoop_lt hc.ptr_lt hf
  cases slot? with
  | none =>
    refine ⟨s, next, cache, ?_, hs, rfl, intact_moved h hl hs rfl he hc.referenced⟩
    rw [read]
    simp only [hf]
  | some n =>
    have hn : n < cache.length := by
      rw [hc.length]
      exact ht n rfl
    obtain ⟨slot, hsl⟩ : ∃ slot, slot = cache.getD n default := ⟨_, rfl⟩
    have hg : slot = cache[n] := hsl.trans (getD_eq_getElem _ _ hn)
    have hm : slot ∈ cache := hg ▸ getElem_mem hn
    -- first the page that the slot showed is let go of, then the slot shows the page of the fault
    have hre : Shows r s (rearm p s slot) := by
      rw [rearm]
      split_ifs with hi
      · exact hs.mapAt (hc.referenced slot hm hi) (by decide)
      · exact hs
    obtain ⟨f, -, ha⟩ := hc.exists_backs hm
    have hsh : Shows r s (mapAt (rearm p s slot) p.pagemap 4096
        ((rearm p s slot).pages.paddrof slot.buffer) (0x2000#16 ||| aflags p 0) dst).2 :=
      hre.mapAt hd (paddrof_aligned _ ha.aligned)
    have hb : (cache.set n ⟨(offset / 4096#64).setWidth 32, slot.buffer, dst⟩).map
        buffer = cache.map buffer := by
      have ht : n < (cache.map buffer).length := by rwa [length_map]
      rw [map_set, hg, ← getElem_map buffer (h := ht)]
      exact set_getElem_self ht
    refine ⟨_, next, _, ?_, hsh, hb, intact_moved h hl hsh hb he ?_⟩
    · rw [read]
      simp only [hf, ← hsl]
    intro slot' hs' hi
    rcases mem_or_eq_of_mem_set hs' with hold | rfl
    · exact hc.referenced slot' hold hi
    · exact hd

theorem uses_moved (hc : r.cls = .fileBacked ptr cache)
    (hb : cache'.map buffer = cache.map buffer) (pg : PageNumber) :
    ({ r with cls := .fileBacked next cache' } : MMapRegion).Uses pg ↔ r.Uses pg := by
  have hs : ∀ l : List CacheSlot, (∃ slot ∈ l, pg = pageOf slot.buffer) ↔
      ∃ b ∈ l.map buffer, pg = pageOf b := by
    intro l
    simp only [mem_map, exists_exists_and_eq_and]
  have ha : r.cache = cache := by
    rw [MMapRegion.cache, hc]
  refine or_congr Iff.rfl ?_
  rw [ha, hs cache, ← hb, ← hs cache']
  rfl

theorem pageOf_floor (v : BitVec 64) : pageOf (v / 4096#64 * 4096#64) = pageOf v := by
  apply BitVec.eq_of_toNat_eq
  rw [toNat_pageOf, toNat_pageOf, BitVec.toNat_mul, BitVec.toNat_udiv]
  simp only [BitVec.reduceToNat]
  omega

theorem fault_cases (hs : s.Sound p) (h : fault p s addr = .ok s') :
    s' = s ∨ ∃ (i : ℕ) (r : MMapRegion) (u : MMapSpace) (ptr next : ℕ)
        (cache cache' : List CacheSlot),
      s.regions.get? i = some r ∧ r.cls = .fileBacked ptr cache ∧
      s' = u.update i { r with cls := .fileBacked next cache' } ∧ Shows r s u ∧
      cache'.map buffer = cache.map buffer ∧
      Intact p u { r with cls := .fileBacked next cache' } := by
  rw [fault] at h
  split at h
  · exact .inl (Except.ok.inj h).symm
  next i r hf =>
  obtain ⟨hi, ho⟩ := findMmapRegion_some hf
  have hint := hs.intact i r hi
  dsimp only at h
  split at h
  · cases h
  next ptr cache hc =>
  have hd : r.OnRange (pageOf (addr / 4096#64 * 4096#64)) := by
    rw [pageOf_floor]
    exact hint.placed.onRange ho
  obtain ⟨u, next, cache', hr, hsh, hb, hm⟩ :=
    read_spec (i := i) hint hc hd (addr / 4096#64 * 4096#64 - r.start)
  rw [hr] at h
  exact .inr ⟨i, r, u, ptr, next, cache, cache', hi, hc, (Except.ok.inj h).symm, hsh, hb, hm⟩

theorem Sound.fault (hs : s.Sound p) (h : fault p s addr = .ok s') : s'.Sound p := by
  rcases fault_cases hs h with
    rfl | ⟨i, r, u, ptr, next, cache, cache', hi, hc, rfl, hsh, hb, hm⟩
  · exact hs
  obtain ⟨hv, hg⟩ := get?_update (r := { r with cls := .fileBacked next cache' })
    (hsh.regions ▸ hs.vector) (hsh.regions ▸ hi)
  rw [hsh.regions] at hg
  have hu : ∀ pg, ({ r with cls := .fileBacked next cache' } : MMapRegion).Uses pg ↔ r.Uses pg :=
    uses_moved hc hb
  have ha : ∀ j t, s.regions.get? j = some t → j ≠ i →
      Apart { r with cls := .fileBacked next cache' } t := by
    intro j t ht hn
    have hr := hs.apart i j r t hi ht (Ne.symm hn)
    exact ⟨fun pg hp => hr.pages pg ((hu pg).mp hp), hr.frames⟩
  refine ⟨hv, hsh.outstanding ▸ hs.nodup, ?_, ?_⟩
  · intro j t ht
    rw [hg] at ht
    split_ifs at ht with hj
    · cases ht
      exact hm.of_kept (fun _ _ => rfl) hm.frames
    refine (hs.intact j t ht).of_kept (fun pg hp => ?_) fun f hf => ?_
    · exact hsh.outside pg fun hra =>
        (hs.apart i j r t hi ht (Ne.symm hj)).pages pg (.inl hra) hp
    · exact hsh.outstanding ▸ (hs.intact j t ht).frames f hf
  intro j k t t' ht ht' hn
  rw [hg] at ht ht'
  split_ifs at ht ht' with hj hk hk
  · exact absurd (hj.trans hk.symm) hn
  · cases ht
    exact ha k t' ht' hk
  · cases ht'
    exact (ha j t ht hj).symm
  · exact hs.apart j k t t' ht ht' hn

/-- There is a file's region at an index, with this range and these frames. -/
def HasFile (s : MMapSpace) (i : ℤ) (v len : BitVec 64) (frames : List Frame) : Prop :=
  ∃ ptr cache, s.regions.get? i = some ⟨v, len, .fileBacked ptr cache, frames⟩

theorem fault_keeps (hs : s.Sound p) (h : fault p s addr = .ok s') :
    s'.outstanding = s.outstanding ∧
      ∀ j v len frames, s.HasFile j v len frames → s'.HasFile j v len frames := by
  rcases fault_cases hs h with
    rfl | ⟨i, r, u, ptr, next, cache, cache', hi, hc, rfl, hsh, -, -⟩
  · exact ⟨rfl, fun _ _ _ _ => id⟩
  refine ⟨hsh.outstanding, ?_⟩
  rintro j v len frames ⟨ptr', slots, hj⟩
  obtain ⟨-, hg⟩ := get?_update (r := { r with cls := .fileBacked next cache' })
    (hsh.regions ▸ hs.vector) (hsh.regions ▸ hi)
  rw [hsh.regions] at hg
  by_cases he : j = i
  · subst he
    obtain rfl := Option.some.inj (hi.symm.trans hj)
    exact ⟨next, cache', by rw [hg, if_pos rfl]⟩
  · exact ⟨ptr', slots, by rw [hg, if_neg he, hj]⟩

end MMapSpace

end AexKernel.Mem
