import AexKernel.Mem.MMapRegions

/-! # What `munmap` gives back

A region of a file gives its pages and its buffers back (`Removes`). -/

namespace AexKernel.Mem

open Library BitVec List

variable {p : MMapProcess} {s s' : MMapSpace} {r t : MMapRegion} {addr : BitVec 64} {i : ℤ}

namespace MMapSpace

/-! ## Destructors -/

variable {k ptr n : ℕ}

theorem placed_range (h : RegionPlaced p r) (hk : k < ceiltopg64 r.len) :
    p.pagemap.vstart ≤ pageAt r.start k ∧ pageAt r.start k ≤ p.pagemap.vend := by
  have hl : r.len ≠ 0 := by
    intro hz
    rw [hz] at hk
    exact absurd hk (by simp [ceiltopg64])
  have ho := h.low hl
  have hh := h.high hl
  have ha : (pageAt r.start k).toNat = r.start.toNat + 4096 * k := by
    rw [pageAt, toNat_add, toNat_ofNat]
    omega
  rw [le_def, le_def, ha]
  omega

variable {cache : List CacheSlot}

theorem destroy_fileBacked (h : Intact p s r) (hs : s.outstanding.Nodup)
    (hc : r.cls = .fileBacked ptr cache) :
    ∃ s', destroy p s r = .ok s' ∧ s'.regions = s.regions ∧
      s.outstanding.Perm (r.obtained ++ s'.outstanding) ∧ (∀ pg, r.Uses pg → s'.pages pg = 0) ∧
      ∀ pg, ¬ r.Uses pg → s'.pages pg = s.pages pg := by
  have ha := h.cached ptr cache hc
  have hca : r.cache = cache := by
    rw [MMapRegion.cache, hc]
  obtain ⟨m, hf, hr⟩ := freeLoop_spec (s := s) (fun k hk => placed_range h.placed hk)
    fun pg hp => by
      have hki := h.range pg hp
      rw [hc] at hki
      exact .inl hki
  have hb : Forall₂ (fun slot f => Backs m slot.buffer f) cache r.obtained :=
    forall₂_backs ha.backs fun slot hl _ _ _ =>
      hr.outside _ (h.buffer_not_onRange hc hl)
  obtain ⟨s', hu, hre, hpe, hz, ho⟩ :=
    freeBuffers_spec (s := { s with pages := m }) hb h.nodup h.frames hs
  refine ⟨s', ?_, hre, hpe, ?_, ?_⟩
  · rw [destroy, hc]
    dsimp only
    rw [free, hf]
    exact hu
  · rintro pg (hra | ⟨slot, hl, rfl⟩)
    · rw [ho pg fun slot hl he => h.buffer_not_onRange hc hl (he ▸ hra)]
      exact hr.inside pg hra
    · exact hz slot (hca ▸ hl)
  · intro pg hp
    rw [ho pg fun slot hl he => hp (.inr ⟨slot, hca.symm ▸ hl, he⟩)]
    exact hr.outside pg fun hra => hp (.inl hra)

/-- A region has been taken out and deleted. -/
structure Removes (i : ℤ) (r : MMapRegion) (s s' : MMapSpace) : Prop where
  vector : s'.regions.Sound
  regions : ∀ j, s'.regions.get? j = if j = i then none else s.regions.get? j
  outside : ∀ pg, ¬ r.Uses pg → s'.pages pg = s.pages pg
  plain : r.cls = .plain → s'.pages = s.pages ∧ s'.outstanding = s.outstanding
  freed : ∀ ptr cache, r.cls = .fileBacked ptr cache →
    s.outstanding.Perm (r.obtained ++ s'.outstanding) ∧ ∀ pg, r.Uses pg → s'.pages pg = 0

theorem munmap_cases (hs : s.Sound p) (addr : BitVec 64) :
    ∃ s', munmap p s addr = .ok s' ∧
      ((s' = s ∧ ∀ j t, s.regions.get? j = some t → ¬ t.contains addr) ∨
        ∃ i r, s.regions.get? i = some r ∧ r.contains addr ∧ Removes i r s s') := by
  rw [munmap]
  cases hf : s.findMmapRegion addr with
  | none => exact ⟨s, rfl, .inl ⟨rfl, fun j t ht => findMmapRegion_none hf ht⟩⟩
  | some found =>
    obtain ⟨i, r⟩ := found
    obtain ⟨hi, hco⟩ := findMmapRegion_some hf
    obtain ⟨regions, he, hv, hg⟩ := LazyVector.erase_spec hs.vector (i := i) (by rw [hi]; rfl)
    have hint : Intact p { s with regions } r :=
      (hs.intact i r hi).of_kept (fun _ _ => rfl) (hs.intact i r hi).frames
    dsimp only
    rw [he, ok_bind]
    cases hc : r.cls with
    | plain =>
      refine ⟨{ s with regions }, ?_, .inr ⟨i, r, hi, hco, hv, hg, fun _ _ => rfl,
        fun _ => ⟨rfl, rfl⟩, fun ptr cache h => ?_⟩⟩
      · rw [destroy, hc]
      rw [hc] at h
      cases h
    | fileBacked ptr cache =>
      obtain ⟨s', hd, hr, hp, hz, ho⟩ :=
        destroy_fileBacked hint hs.nodup hc
      refine ⟨s', hd, .inr ⟨i, r, hi, hco, hr ▸ hv, hr ▸ hg,
        ho, fun h => ?_, fun _ _ _ => ⟨hp, hz⟩⟩⟩
      rw [hc] at h
      cases h

theorem Removes.outstanding (h : Removes i r s s') :
    (s.outstanding.Nodup → s'.outstanding.Nodup) ∧
      ∀ f ∈ s.outstanding, f ∉ r.obtained → f ∈ s'.outstanding := by
  cases hc : r.cls with
  | plain =>
    rw [(h.plain hc).2]
    exact ⟨id, fun f hf _ => hf⟩
  | fileBacked ptr cache =>
    have hp := (h.freed ptr cache hc).1
    constructor
    · intro ho
      exact (nodup_append.mp (hp.nodup_iff.mp ho)).2.1
    · intro f hf hn
      exact (mem_append.mp (hp.mem_iff.mp hf)).resolve_left hn

theorem Sound.removes (hs : s.Sound p) (hi : s.regions.get? i = some r) (h : Removes i r s s') :
    s'.Sound p := by
  have hk : ∀ j t, s'.regions.get? j = some t → s.regions.get? j = some t ∧ j ≠ i := by
    intro j t ht
    rw [h.regions] at ht
    split_ifs at ht with hj
    exact ⟨ht, hj⟩
  refine ⟨h.vector, h.outstanding.1 hs.nodup, ?_, ?_⟩
  · intro j t ht
    obtain ⟨ht, hj⟩ := hk j t ht
    have ha := hs.apart j i t r ht hi hj
    refine (hs.intact j t ht).of_kept (fun pg hp => ?_) fun f hf => ?_
    · exact h.outside pg (ha.pages pg hp)
    · exact h.outstanding.2 f ((hs.intact j t ht).frames f hf) (ha.frames f hf)
  · intro j k t t' ht ht' hn
    exact hs.apart j k t t' (hk j t ht).1 (hk k t' ht').1 hn

/-! ## Runs -/

/-- The steps of a run: requests for which there is room, faults and `munmap` at any address, and
other parts of the kernel that keep to their own pages and frames. -/
def Permitted (p : MMapProcess) (s : MMapSpace) : Call → Prop
  | .mmap q => q.Fits p s
  | .fault _ | .munmap _ => True
  | .elsewhere pages _ outstanding =>
    outstanding.Nodup ∧ ∀ i r, s.regions.get? i = some r →
      (∀ pg, r.Uses pg → pages pg = s.pages pg) ∧ ∀ f ∈ r.obtained, f ∈ outstanding

theorem Sound.step (hs : s.Sound p) {call : Call} (hc : Permitted p s call)
    (h : step p s call = .ok s') : s'.Sound p := by
  cases call with
  | mmap q =>
    rw [MMapSpace.step] at h
    cases hm : mmap p s q with
    | error e =>
      rw [hm] at h
      cases h
    | ok out =>
      obtain ⟨res, u⟩ := out
      rw [hm] at h
      cases h
      rcases mmap_cases hc hm with ⟨-, rfl⟩ | ⟨u, r, hn, hp, -⟩
      · exact hs
      · exact hs.push hn hp
  | fault addr => exact hs.fault h
  | munmap addr =>
    obtain ⟨u, hu, ha⟩ := munmap_cases hs addr
    obtain rfl := Except.ok.inj (hu.symm.trans h)
    rcases ha with ⟨rfl, -⟩ | ⟨i, r, hi, -, hr⟩
    · exact hs
    · exact hs.removes hi hr
  | elsewhere pages supply outstanding =>
    cases h
    refine ⟨hs.vector, hc.1, fun i r hi => ?_, hs.apart⟩
    exact (hs.intact i r hi).of_kept (hc.2 i r hi).1 (hc.2 i r hi).2

def Fresh (s : MMapSpace) : Prop := s.regions = {} ∧ s.outstanding.Nodup

theorem Fresh.sound (h : s.Fresh) : s.Sound p := by
  have hn : ∀ i, s.regions.get? i = none := by
    intro i
    rw [h.1, LazyVector.get?]
    split_ifs <;> rfl
  refine ⟨by rw [h.1]; rfl, h.2, fun i r hi => ?_, fun i j r t hi => ?_⟩
  · rw [hn] at hi
    cases hi
  · rw [hn] at hi
    cases hi

theorem sound_of_reach {s₀ : MMapSpace} (h₀ : s₀.Fresh)
    (h : Reach (step p) (Permitted p) s₀ s) : s.Sound p :=
  h.invariant (P := fun s => s.Sound p) h₀.sound fun _ _ _ hs hc ht => hs.step hc ht

/-! ## Conservation -/

/-- `munmap` of a region leaves none of its pages present, gives back its frames and no others, and
leaves the other regions and all pages but the region's as they are. -/
structure Conserves (i : ℤ) (r : MMapRegion) (s s' : MMapSpace) : Prop where
  absent : ∀ pg, r.OnRange pg → s'.pages pg &&& pagePresent = 0
  frames : s.outstanding.Perm (r.obtained ++ s'.outstanding)
  others : ∀ j, j ≠ i → s'.regions.get? j = s.regions.get? j
  pages : ∀ pg, ¬ r.Uses pg → s'.pages pg = s.pages pg

/-- When memory is conserved: for a region of a file that is not empty and does not end with the
address space, and for an empty region without buffers when no region is at address zero. -/
def Released (s : MMapSpace) (r : MMapRegion) : Prop :=
  match r.cls with
  | .fileBacked _ _ => r.len ≠ 0 ∧ r.start.toNat + r.len.toNat < 2 ^ 64
  | .plain => r.len = 0 ∧ ∀ j t, s.regions.get? j = some t → ¬ t.contains 0

section

variable (hs : s.Sound p)
include hs

section

variable (hi : s.regions.get? i = some r)
include hi

theorem Sound.removed_eq {j : ℤ} (hj : s.regions.get? j = some t) (hc : t.contains r.start)
    (hl : r.len ≠ 0) : j = i :=
  hs.index_eq hj hi (.inl ((hs.intact j t hj).placed.onRange hc))
    (.inl ((hs.intact i r hi).placed.start_onRange hl))

theorem Sound.conserves_empty (hl : r.len = 0) (h : munmap p s r.start = .ok s') :
    Conserves i r s s' ↔
      r.obtained = [] ∧ ∀ j t, s.regions.get? j = some t → ¬ t.contains 0 := by
  have hp := (hs.intact i r hi).placed
  obtain ⟨u, hm, ha⟩ := munmap_cases hs r.start
  obtain rfl := Except.ok.inj (hm.symm.trans h)
  rw [hp.empty hl] at ha
  rcases ha with ⟨rfl, hn⟩ | ⟨j, t, hj, hc, hr⟩
  · constructor
    · intro ho
      have he := ho.frames.length_eq
      rw [length_append] at he
      exact ⟨length_eq_zero_iff.mp (by omega), hn⟩
    rintro ⟨hb, -⟩
    refine ⟨fun pg hg => ?_, by rw [hb]; rfl, fun _ _ => rfl, fun _ _ => rfl⟩
    have hz : ceiltopg64 r.len = 0 := by
      rw [hl]
      decide
    rw [MMapRegion.OnRange, hz] at hg
    exact absurd hg not_onPages_zero
  refine iff_of_false (fun ho => ?_) fun hn => hn.2 j t hj hc
  -- the region at address zero is another one, and it is gone
  have hne : j ≠ i := by
    rintro rfl
    obtain rfl := Option.some.inj (hi.symm.trans hj)
    rw [← hp.empty hl] at hc
    exact (hp.contains_start.mp hc).1 hl
  have hgo := ho.others j hne
  rw [hr.regions, if_pos rfl, hj] at hgo
  cases hgo

theorem Sound.conserves_fileBacked (hcl : r.cls = .fileBacked ptr cache) (hl : r.len ≠ 0)
    (h : munmap p s r.start = .ok s') :
    Conserves i r s s' ↔ r.start.toNat + r.len.toNat < 2 ^ 64 := by
  have hint := hs.intact i r hi
  have hca := hint.cached ptr cache hcl
  obtain ⟨u, hm, ha⟩ := munmap_cases hs r.start
  obtain rfl := Except.ok.inj (hm.symm.trans h)
  rcases ha with ⟨rfl, hn⟩ | ⟨j, t, hj, hc, hr⟩
  · refine iff_of_false (fun ho => ?_) fun ht =>
      hn i r hi (hint.placed.contains_start.mpr ⟨hl, ht⟩)
    have he := ho.frames.length_eq
    rw [length_append, ← hca.backs.length_eq, hca.length] at he
    omega
  obtain rfl := hs.removed_eq hi hj hc hl
  obtain rfl := Option.some.inj (hi.symm.trans hj)
  obtain ⟨hp, hz⟩ := hr.freed ptr cache hcl
  refine iff_of_true ⟨fun pg hg => ?_, hp, fun k hk => ?_, hr.outside⟩
    (hint.placed.contains_start.mp hc).2
  · rw [hz pg (.inl hg)]
    exact zero_and
  · rw [hr.regions, if_neg hk]

theorem Sound.not_conserves_plain (hcl : r.cls = .plain) (hl : r.len ≠ 0)
    (h : munmap p s r.start = .ok s') : ¬ Conserves i r s s' := by
  intro ho
  have hint := hs.intact i r hi
  have ht := hint.placed.start_onRange hl
  have ha : s'.pages = s.pages := by
    obtain ⟨u, hm, hca⟩ := munmap_cases hs r.start
    obtain rfl := Except.ok.inj (hm.symm.trans h)
    rcases hca with ⟨rfl, -⟩ | ⟨j, t, hj, hc, hr⟩
    · rfl
    obtain rfl := hs.removed_eq hi hj hc hl
    obtain rfl := Option.some.inj (hi.symm.trans hj)
    exact (hr.plain hcl).1
  have hp := hint.range _ ht
  rw [hcl, ← ha] at hp
  exact hp (ho.absent _ ht)

end

end

/-! ## Cycles -/

/-- The request is for the file of an inode, and `dup` of the file succeeds. -/
def MMapRequest.OfInode (q : MMapRequest) : Prop :=
  q.flags &&& mapFixed = 0 ∧ q.flags &&& mapAnonymous = 0 ∧ q.file = some (.inode, none)

/-- `mmap` of a file, any page faults and `munmap` of the address that `mmap` returned, any number
of times. -/
inductive Cycles (p : MMapProcess) : MMapSpace → MMapSpace → Prop
  | refl {s : MMapSpace} : Cycles p s s
  | cycle {s s1 s2 s3 s' : MMapSpace} {q : MMapRequest} {v : BitVec 64} (fits : q.Fits p s)
      (file : q.OfInode) (bytes : q.len ≠ 0) (below : v.toNat + q.len.toNat < 2 ^ 64)
      (mapped : mmap p s q = .ok (.ok v, s1))
      (faults : Reach (fault p) (fun _ _ => True) s1 s2) (unmapped : munmap p s2 v = .ok s3)
      (rest : Cycles p s3 s') : Cycles p s s'

variable {v w : BitVec 64} {q : MMapRequest}

theorem mmap_inode (hs : s.Sound p) (hq : q.Fits p s) (hfi : q.OfInode)
    (h : mmap p s q = .ok (.ok v, s')) :
    s'.Sound p ∧ ∃ i frames, s'.HasFile i v q.len frames ∧
      s'.outstanding.Perm (frames ++ s.outstanding) := by
  obtain ⟨hf, ha, hin⟩ := hfi
  rw [mmap, if_neg (not_not.mpr hf), if_neg (not_not.mpr ha), hin] at h
  obtain ⟨⟨w, u⟩, hm, hu⟩ := bind_eq_ok.mp h
  obtain ⟨hv, rfl⟩ := Prod.mk.inj (Except.ok.inj hu)
  cases hv
  obtain ⟨u', cache, frames, hn, hp⟩ := mmapInode_spec hq.short hq.room hq.buffers hm
  have he : u'.regions.Sound := by
    rw [hn.takes.regions]
    exact hs.vector
  obtain ⟨-, -, ho, i, -, hg⟩ := push_eq_ok he hp
  refine ⟨hs.push hn hp, i, frames, ⟨0, cache, ?_⟩, ?_⟩
  · rw [hg, if_pos rfl]
  rw [ho]
  exact hn.takes.outstanding

theorem faults_keep (hs : s.Sound p) (h : Reach (fault p) (fun _ _ => True) s s') :
    s'.Sound p ∧ s'.outstanding = s.outstanding ∧
      ∀ j v len frames, s.HasFile j v len frames → s'.HasFile j v len frames := by
  induction h with
  | refl => exact ⟨hs, rfl, fun _ _ _ _ => id⟩
  | step addr _ _ ha ih =>
    obtain ⟨hso, ho, hfi⟩ := ih
    obtain ⟨ho', hf'⟩ := fault_keeps hso ha
    exact ⟨hso.fault ha, ho'.trans ho,
      fun j v len frames hf => hf' j v len frames (hfi j v len frames hf)⟩

theorem Cycles.outstanding (h : Cycles p s s') (hs : s.Sound p) :
    s'.outstanding.Perm s.outstanding := by
  induction h with
  | refl => exact .refl _
  | @cycle s s1 s2 s3 s' q v fits file bytes below mapped faults unmapped rest ih =>
    obtain ⟨hs1, i, frames, hf, ht⟩ := mmap_inode hs fits file mapped
    obtain ⟨hs2, ho, hk⟩ := faults_keep hs1 faults
    obtain ⟨ptr, cache, hi⟩ := hk i v q.len frames hf
    have hc := (hs2.conserves_fileBacked hi rfl bytes unmapped).mpr below
    have hs3 : s3.Sound p := hs2.step (show Permitted p s2 (.munmap v) from trivial) unmapped
    -- what the mapping took is what `munmap` gave back
    have hb : (frames ++ s.outstanding).Perm (frames ++ s3.outstanding) :=
      calc (frames ++ s.outstanding)
        |>.Perm s1.outstanding := ht.symm
      _ |>.Perm s2.outstanding := .of_eq ho.symm
      _ |>.Perm (frames ++ s3.outstanding) := hc.frames
    exact (ih hs3).trans ((perm_append_left_iff frames).mp hb).symm

/-! ## The kernel's process -/

def firstFit (m : PageMap) (n : ℕ) : ℕ → BitVec 64 → BitVec 64
  | 0, _ => 0
  | k + 1, v =>
    if ∀ j < n, m (pageOf (pageAt v j)) = 0 then v else firstFit m n k (v + 4096#64)

variable {m : PageMap}

theorem firstFit_room {map : Pagemap} (hv : v.toNat % 4096 = 0) (hl : map.vstart.toNat ≤ v.toNat)
    (hr : Room map m w n) (hn : 0 < n) (he : v.toNat ≤ w.toNat)
    (hk : w.toNat < v.toNat + 4096 * k) : Room map m (firstFit m n k v) n := by
  induction k generalizing v with
  | zero => omega
  | succ k ih =>
    have ha := hr.aligned
    have hh := hr.high
    rw [firstFit]
    split_ifs with hf
    · exact ⟨hv, hl, by omega, hf⟩
    have hne : v ≠ w := by
      rintro rfl
      exact hf hr.free
    have ht : v.toNat < w.toNat := lt_of_le_of_ne he fun h => hne (eq_of_toNat_eq h)
    have hx : (v + 4096#64).toNat = v.toNat + 4096 := by
      rw [toNat_add]
      simp only [reduceToNat]
      omega
    exact ih (by omega) (by omega) (by omega) (by omega)

def kernelFit (m : PageMap) (n : ℕ) : BitVec 64 :=
  if n = 0 then 0 else firstFit m n (2 ^ 35) 0xFFFF800000000000#64

theorem kernelFit_room (hn : 0 < n) (h : ∃ v, Room (Machine.kernelPagemap 0) m v n) :
    Room (Machine.kernelPagemap 0) m (kernelFit m n) n := by
  obtain ⟨w, hr⟩ := h
  have hl : 0xFFFF800000000000 ≤ w.toNat := hr.low
  have ht : (0xFFFF800000000000#64).toNat = 0xFFFF800000000000 := by decide
  rw [kernelFit, if_neg (Nat.ne_of_gt hn)]
  refine firstFit_room ?_ ?_ hr hn ?_ ?_
  · rw [ht]
  · exact Nat.le_of_eq rfl
  · rw [ht]
    exact hl
  · rw [ht]
    omega

/-- `Process::kernel()`. -/
def kernelProcess : MMapProcess where
  pagemap := Machine.kernelPagemap 0
  user := false
  findContiguous := kernelFit
  findKernel := kernelFit
  found := fun _ _ => kernelFit_room
  foundKernel := fun _ => kernelFit_room Nat.one_pos
  findContiguous_zero := fun _ => rfl

def blank : MMapSpace where
  pages := fun _ => 0
  supply := (List.range 16).map fun k => ⟨BitVec.ofNat 52 (k % 16 + 1), by
    intro h
    have hnat := congrArg BitVec.toNat h
    rw [BitVec.toNat_ofNat] at hnat
    have hmod : (k % 16 + 1) % 2 ^ 52 = 0 := hnat
    omega⟩
  outstanding := []
  regions := {}

theorem blank_fresh : blank.Fresh := ⟨rfl, nodup_nil⟩

theorem blank_room (hv : v.toNat % 4096 = 0) (hl : 0xFFFF800000000000 ≤ v.toNat)
    (hh : v.toNat + 4096 * n ≤ 2 ^ 64) : Room (Machine.kernelPagemap 0) blank.pages v n :=
  ⟨hv, hl, hh, fun _ _ => rfl⟩

theorem toNat_kernelPage (hk : k ≤ 16) :
    (pageAt 0xFFFF800000000000#64 k).toNat = 0xFFFF800000000000 + 4096 * k := by
  rw [pageAt, toNat_add, toNat_ofNat, toNat_ofNat]
  omega

theorem blank_fits (hl : q.len.toNat ≤ 8192) (hf : q.file = none ∨ q.file = some (.inode,
      none)) :
    q.Fits kernelProcess blank := by
  have hh : q.len.toNat + 4095 < 2 ^ 64 := by omega
  have ha : ceiltopg64 q.len ≤ 2 := by
    rw [ceiltopg64_eq hh]
    omega
  have ht := toNat_kernelPage (k := 0) (by decide)
  refine ⟨hh, fun _ => ⟨pageAt 0xFFFF800000000000#64 0, blank_room ?_ ?_ ?_⟩, ?_, ?_⟩
  · omega
  · omega
  · omega
  · refine ⟨(range 16).map (pageAt 0xFFFF800000000000#64), ?_, by decide, ?_⟩
    · rw [length_map, length_range]
      omega
    intro v hv
    obtain ⟨k, hk, rfl⟩ := mem_map.mp hv
    have hp := toNat_kernelPage (Nat.le_of_lt (mem_range.mp hk))
    exact blank_room (by omega) (by omega) (by omega)
  · intro output limit dup he
    rcases hf with hn | hin
    · rw [hn] at he
      cases he
    · rw [hin] at he
      cases he

def twoPages : MMapRequest := ⟨8192, 1, 0, some (.inode, none), 0⟩

def anonymousPage : MMapRequest := ⟨4096, 3, mapAnonymous, none, 0⟩

def readFile : Except Fault MMapSpace := do
  let s ← step kernelProcess blank (.mmap twoPages)
  step kernelProcess s (.fault 0xFFFF800000001000#64)

/-! ## In every run -/

/-- **`munmap` conserves memory** for a region of a run exactly when the region is released; mapping
a file and unmapping it again, any number of times, leaves as many frames in use as before. -/
theorem munmap_conserves_iff {s₀ : MMapSpace} (h₀ : s₀.Fresh)
    (h : Reach (step p) (Permitted p) s₀ s) :
    (∀ i r, s.regions.get? i = some r →
      ∃ s', munmap p s r.start = .ok s' ∧ (Conserves i r s s' ↔ Released s r)) ∧
    ∀ s', Cycles p s s' → s'.outstanding.Perm s.outstanding := by
  have hs : s.Sound p := sound_of_reach h₀ h
  refine ⟨fun i r hi => ?_, fun s' hcy => hcy.outstanding hs⟩
  have hint := hs.intact i r hi
  obtain ⟨s', hmu, -⟩ := munmap_cases hs r.start
  refine ⟨s', hmu, ?_⟩
  rw [Released]
  cases hcl : r.cls with
  | plain =>
    by_cases hlen : r.len = 0
    · rw [hs.conserves_empty hi hlen hmu]
      exact and_congr_left fun _ => iff_of_true (hint.bare hcl hlen) hlen
    · exact iff_of_false (hs.not_conserves_plain hi hcl hlen hmu) fun hre => hlen hre.1
  | fileBacked ptr cache =>
    have hca := hint.cached ptr cache hcl
    by_cases hlen : r.len = 0
    · rw [hs.conserves_empty hi hlen hmu]
      refine iff_of_false (fun hem => ?_) fun hre => hre.1 hlen
      have hleng := hca.backs.length_eq
      rw [hca.length, hem.1] at hleng
      cases hleng
    · rw [hs.conserves_fileBacked hi hcl hlen hmu]
      exact (and_iff_right hlen).symm

theorem munmap_conserves_iff_readFile :
    ∃ s r s', Reach (step kernelProcess) (Permitted kernelProcess) blank s ∧
      s.regions.get? 0 = some r ∧ r.len = 8192 ∧ r.obtained.length = 8 ∧
      munmap kernelProcess s r.start = .ok s' ∧ Conserves 0 r s s' := by
  have hrun : (readFile.toOption.bind (·.regions.get? 0)).map
      (fun r => (r.start, r.len, r.obtained.length, decide (r.cls = .plain))) =
        some (0xFFFF800000000000#64, 8192#64, 8, false) := by
    decide
  obtain ⟨r, hr, hsum⟩ := Option.map_eq_some_iff.mp hrun
  obtain ⟨s, hs, hget⟩ := Option.bind_eq_some_iff.mp hr
  obtain ⟨hst, hlen, hob, hcl⟩ : r.start = 0xFFFF800000000000#64 ∧ r.len = 8192#64 ∧
      r.obtained.length = 8 ∧ decide (r.cls = .plain) = false := by
    simpa only [Prod.mk.injEq] using hsum
  obtain ⟨s1, hmm, hfa⟩ := bind_eq_ok.mp (toOption_eq_some.mp hs)
  have hfit : twoPages.Fits kernelProcess blank := blank_fits (by decide) (.inr rfl)
  have hmap : Reach (step kernelProcess) (Permitted kernelProcess) blank s1 :=
    Reach.refl.step (.mmap twoPages) hfit hmm
  have hre : Reach (step kernelProcess) (Permitted kernelProcess) blank s :=
    hmap.step (.fault 0xFFFF800000001000#64) trivial hfa
  obtain ⟨s', hmu, hiff⟩ := (munmap_conserves_iff blank_fresh hre).1 0 r hget
  refine ⟨s, r, s', hre, hget, hlen, hob, hmu, hiff.mpr ?_⟩
  rw [Released]
  split
  · rw [hst, hlen]
    decide
  · next hpl => exact absurd hpl (of_decide_eq_false hcl)

theorem not_conserves_anonymousPage :
    ∃ s r s', Reach (step kernelProcess) (Permitted kernelProcess) blank s ∧
      s.regions.get? 0 = some r ∧ munmap kernelProcess s r.start = .ok s' ∧
      s'.regions.get? 0 = none ∧ s'.outstanding = r.obtained ∧ r.obtained = [1#52] ∧
      s'.pages (pageOf r.start) &&& pagePresent ≠ 0 ∧ ¬ Conserves 0 r s s' := by
  have hrun : ((step kernelProcess blank (.mmap anonymousPage)).toOption.bind fun s =>
      (s.regions.get? 0).bind fun r => (munmap kernelProcess s r.start).toOption.map fun s' =>
        (ceiltopg64 r.len, r.obtained, s'.outstanding, (s'.regions.get? 0).isNone,
          decide (s'.pages (pageOf r.start) &&& pagePresent = 0))) =
        some (1, [1#52], [1#52], true, false) := by
    decide
  obtain ⟨s, hs, hres⟩ := Option.bind_eq_some_iff.mp hrun
  obtain ⟨r, hget, hres⟩ := Option.bind_eq_some_iff.mp hres
  obtain ⟨s', hmu, hsum⟩ := Option.map_eq_some_iff.mp hres
  obtain ⟨ham, hob, hout, hnon, hpre⟩ : ceiltopg64 r.len = 1 ∧
      r.obtained = [1#52] ∧ s'.outstanding = [1#52] ∧ (s'.regions.get? 0).isNone = true ∧
      decide (s'.pages (pageOf r.start) &&& pagePresent = 0) = false := by
    simpa only [Prod.mk.injEq] using hsum
  have hra : r.OnRange (pageOf r.start) := ⟨0, by omega, by rw [pageAt_zero]⟩
  have hfit : anonymousPage.Fits kernelProcess blank := blank_fits (by decide) (.inl rfl)
  have hre : Reach (step kernelProcess) (Permitted kernelProcess) blank s :=
    Reach.refl.step (.mmap anonymousPage) hfit (toOption_eq_some.mp hs)
  refine ⟨s, r, s', hre, hget, toOption_eq_some.mp hmu, Option.isNone_iff_eq_none.mp hnon,
    hout.trans hob.symm, hob, of_decide_eq_false hpre, fun hco => ?_⟩
  exact of_decide_eq_false hpre (hco.absent _ hra)

end MMapSpace

end AexKernel.Mem
