import AexKernel.Elf.Exec

/-! # The memory of a loaded program

After the loop of `Elf64Executor::exec` every byte of a section should be the byte of the file, and
nothing else should have been written. -/

namespace AexKernel.Elf

open Library Mem List Function BitVec Machine SectionHeader
open Memory (chkSize loadSection)
open BitVec (ofNat)

/-! ## What is to be in memory -/

namespace SectionHeader

def Covers (h : SectionHeader) (v : BitVec 64) : Prop :=
  h.IsLoaded ∧ h.address.toNat ≤ v.toNat ∧ v.toNat < h.address.toNat + h.size.toNat

def byteAt (h : SectionHeader) (file : BitVec 64 → BitVec 8) (v : BitVec 64) : BitVec 8 :=
  if h.type ≠ .noData then file (h.fileOffset + (v - h.address)) else 0

end SectionHeader

namespace Memory

/-- The process has a frame for the page, and the processor finds it. -/
def Own (s : Memory) (n : PageNumber) : Prop :=
  s.process n &&& pagePresent ≠ 0 ∧ frameOf (s.process n) ≠ 0

/-- The pages of the user half have frames of their own, and `Phys::alloc` hands out frames that no
page has. -/
structure Ready (s : Memory) : Prop where
  apart : ∀ m n : PageNumber, m.toNat < 2 ^ 35 → n.toNat < 2 ^ 35 → s.Own m → s.Own n →
    frameOf (s.process m) = frameOf (s.process n) → m = n
  fresh : ∀ f ∈ s.supply, f ≠ 0 ∧ ∀ n : PageNumber, n.toNat < 2 ^ 35 → s.Own n →
    frameOf (s.process n) ≠ f
  nodup : s.supply.Nodup

end Memory

namespace Executable

/-- The sections are in the memory of the process, and nothing else was written. -/
structure Loaded (e : Executable) (s : Memory) : Prop where
  contents : ∀ h ∈ e.sections, ∀ v, h.Covers v →
    ∃ a, s.process.translate v = some a ∧ s.bytes a = h.byteAt e.file v
  confined : ∀ a ∈ s.stores, ∃ h ∈ e.sections, ∃ v, h.Covers v ∧ s.process.translate v = some a

/-- No page of the sections waits for a page fault, as those of mapped files do. -/
def Backed (e : Executable) (s : Memory) : Prop :=
  ∀ h ∈ e.sections, ∀ v, h.Covers v → frameOf (s.process (pageOf v)) ≠ 0 →
    s.process (pageOf v) &&& pagePresent ≠ 0

/-- Sections without data start at a page. -/
def ZeroFillFits (e : Executable) : Prop :=
  ∀ before h after, e.sections = before ++ h :: after → h.IsLoaded → h.type = .noData →
    h.address.toNat % 4096 = 0 ∧
      ∀ v : BitVec 64, h.address.toNat + h.size.toNat ≤ v.toNat →
        v.toNat / 4096 = (h.address.toNat + h.size.toNat - 1) / 4096 →
        (∃ h' ∈ after, h'.Covers v) ∨ ∃ h' ∈ before, h'.Covers v ∧ h'.byteAt e.file v = 0

end Executable

/-! ## Addresses of sections -/

section Sections

variable {e : Executable} {h h' : SectionHeader} {v : BitVec 64}

theorem Executable.toNat_lt_of_covers (hm : h ∈ e.sections) (hv : h.Covers v) :
    v.toNat < 2 ^ 47 :=
  lt_of_lt_of_le hv.2.2 (e.user h hm hv.1)

theorem toNat_pageOf_lt_of_lt (hv : v.toNat < 2 ^ 47) : (pageOf v).toNat < 2 ^ 35 := by
  rw [toNat_pageOf]
  omega

theorem Executable.eq_of_covers (hm : h ∈ e.sections) (hm' : h' ∈ e.sections) (hv : h.Covers v)
    (hv' : h'.Covers v) : h = h' := by
  by_contra hn
  have : Std.Symm fun h h' : SectionHeader => h.IsLoaded → h'.IsLoaded →
      h.address.toNat + h.size.toNat ≤ h'.address.toNat ∨
        h'.address.toNat + h'.size.toNat ≤ h.address.toNat :=
    ⟨fun h h' ha hl' hl => (ha hl hl').symm⟩
  obtain ⟨hl, he, hlt⟩ := hv
  obtain ⟨hl', he', ht'⟩ := hv'
  have ha := e.disjoint.forall hm hm' hn hl hl'
  omega

variable {pre after : List SectionHeader}

theorem Executable.not_covers_of_split (hsp : e.sections = pre ++ h :: after)
    (hv : h.Covers v) : (∀ h' ∈ pre, ¬ h'.Covers v) ∧ ∀ h' ∈ after, ¬ h'.Covers v := by
  have hp := e.disjoint
  rw [hsp, pairwise_append] at hp
  obtain ⟨-, ht, hc⟩ := hp
  obtain ⟨hl, he, hlt⟩ := hv
  constructor
  · intro h' hm hv'
    have ha := hc h' hm h mem_cons_self hv'.1 hl
    have := hv'.2
    omega
  intro h' hm hv'
  have ha := (pairwise_cons.mp ht).1 h' hm hl hv'.1
  have := hv'.2
  omega

theorem Executable.not_covers_both {g : SectionHeader} (hsp : e.sections = pre ++ g :: after)
    (hm : h ∈ pre) (hm' : h' ∈ after) (hv : h.Covers v) : ¬ h'.Covers v := by
  intro hv'
  have hp := e.disjoint
  rw [hsp, pairwise_append] at hp
  have ha := hp.2.2 h hm h' (mem_cons_of_mem g hm') hv.1 hv'.1
  have := hv.2
  have := hv'.2
  omega

variable {s : Memory}

theorem Memory.Ready.eq_of_phys_eq (hs : s.Ready) {u : BitVec 64} (hu : u.toNat < 2 ^ 47)
    (hv : v.toNat < 2 ^ 47) (ho : s.Own (pageOf u)) (ho' : s.Own (pageOf v))
    (he : s.process.phys u = s.process.phys v) : u = v := by
  obtain ⟨hf, hof⟩ := PageMap.phys_eq_iff.mp he
  have hp := hs.apart _ _ (toNat_pageOf_lt_of_lt hu) (toNat_pageOf_lt_of_lt hv) ho ho' hf
  have hn := congrArg BitVec.toNat hp
  rw [toNat_pageOf, toNat_pageOf] at hn
  apply BitVec.eq_of_toNat_eq
  omega

theorem Memory.Own.translate (ho : s.Own (pageOf v)) :
    s.process.translate v = some (s.process.phys v) :=
  if_neg ho.1

end Sections

/-! ## Pieces -/

/-- The loop on its way: the bytes that are `done` are in memory, and nothing was written outside the
sections. -/
structure Loading (e : Executable) (done : SectionHeader → BitVec 64 → Prop) (s : Memory) : Prop where
  ready : s.Ready
  backed : e.Backed s
  covered : ∀ h v, done h v → h ∈ e.sections ∧ h.Covers v
  written : ∀ h v, done h v →
    s.Own (pageOf v) ∧ s.bytes (s.process.phys v) = h.byteAt e.file v
  confined : ∀ a ∈ s.stores, ∃ h ∈ e.sections, ∃ v, h.Covers v ∧ s.Own (pageOf v) ∧
    s.process.phys v = a

namespace Memory

variable {s : Memory} {f : Frame} {rest : List Frame} {ptr : BitVec 64} {map : Pagemap}
  {flags : BitVec 32}

variable {n : PageNumber}

theorem grant_own (hz : frameOf (s.process (pageOf ptr)) = 0) (hn : s.Own n) :
    (s.grant f rest ptr (Machine.allocFlags map flags)).process n = s.process n := by
  rw [grant_process, update_of_ne]
  rintro rfl
  exact hn.2 hz

theorem grant_self_own (s : Memory) (rest : List Frame) (ptr : BitVec 64) (map : Pagemap)
    (flags : BitVec 32) (hf : f ≠ 0) :
    (s.grant f rest ptr (Machine.allocFlags map flags)).Own (pageOf ptr) ∧
      frameOf ((s.grant f rest ptr (Machine.allocFlags map flags)).process (pageOf ptr)) = f := by
  unfold Own
  rw [grant_process, update_self, frameOf_granted]
  exact ⟨⟨allocFlags_present map flags _, hf⟩, rfl⟩

theorem grant_own_iff (hn : n ≠ pageOf ptr) :
    (s.grant f rest ptr (Machine.allocFlags map flags)).Own n ↔ s.Own n := by
  unfold Own
  rw [grant_process, update_of_ne hn]

theorem Ready.grant (hs : s.Ready) (hu : s.supply = f :: rest)
    (hz : frameOf (s.process (pageOf ptr)) = 0) :
    (s.grant f rest ptr (Machine.allocFlags map flags)).Ready := by
  obtain ⟨hf, hw⟩ := hs.fresh f (hu ▸ mem_cons_self)
  have hno := hs.nodup
  rw [hu, nodup_cons] at hno
  obtain ⟨hse, hr⟩ := grant_self_own s rest ptr map flags hf
  refine ⟨?_, ?_, hno.2⟩
  · intro m n hm hn ho ho' he
    by_cases hmp : m = pageOf ptr
    · by_cases hp : n = pageOf ptr
      · rw [hmp, hp]
      rw [grant_own_iff hp] at ho'
      rw [hmp, hr, grant_own hz ho'] at he
      exact absurd he.symm (hw n hn ho')
    rw [grant_own_iff hmp] at ho
    by_cases hp : n = pageOf ptr
    · rw [hp, hr, grant_own hz ho] at he
      exact absurd he (hw m hm ho)
    rw [grant_own_iff hp] at ho'
    rw [grant_own hz ho, grant_own hz ho'] at he
    exact hs.apart m n hm hn ho ho' he
  intro g hg
  have hmem : g ∈ s.supply := hu ▸ mem_cons_of_mem f hg
  refine ⟨(hs.fresh g hmem).1, ?_⟩
  intro n hn ho
  by_cases hp : n = pageOf ptr
  · rw [hp, hr]
    rintro rfl
    exact hno.1 hg
  · rw [grant_own_iff hp] at ho
    rw [grant_own hz ho]
    exact (hs.fresh g hmem).2 n hn ho

end Memory

namespace Loading

variable {e : Executable} {done done' : SectionHeader → BitVec 64 → Prop} {s s1 s' : Memory}
  {env : Surroundings} {h : SectionHeader} {ptr fptr chk paddr : BitVec 64}

section

variable (hl : Loading e done s)
include hl

theorem grant {f : Frame} {rest : List Frame} {map : Pagemap} {flags : BitVec 32}
    (hu : s.supply = f :: rest) (hz : frameOf (s.process (pageOf ptr)) = 0) :
    Loading e done (s.grant f rest ptr (Machine.allocFlags map flags)) := by
  obtain ⟨hf, hn⟩ := hl.ready.fresh f (hu ▸ mem_cons_self)
  obtain ⟨he, -⟩ := Memory.grant_self_own s rest ptr map flags hf
  -- the pages that the process had
  have hk : ∀ {v : BitVec 64}, s.Own (pageOf v) →
      (s.grant f rest ptr (allocFlags map flags)).Own (pageOf v) ∧
        (s.grant f rest ptr (allocFlags map flags)).process.phys v = s.process.phys v := by
    intro v ho
    have hs : (s.grant f rest ptr (allocFlags map flags)).process (pageOf v) =
        s.process (pageOf v) := Memory.grant_own hz ho
    exact ⟨⟨hs ▸ ho.1, hs ▸ ho.2⟩, by rw [PageMap.phys, PageMap.phys, hs]⟩
  refine ⟨hl.ready.grant hu hz, ?_, hl.covered, ?_, ?_⟩
  · intro g hg v hv hr
    by_cases hpa : pageOf v = pageOf ptr
    · rw [hpa]
      exact he.1
    have hs : (s.grant f rest ptr (allocFlags map flags)).process (pageOf v) =
        s.process (pageOf v) := by
      rw [Memory.grant_process, update_of_ne hpa]
    rw [hs] at hr ⊢
    exact hl.backed g hg v hv hr
  · intro g v hd
    obtain ⟨ho, hb⟩ := hl.written g v hd
    obtain ⟨hg, hv⟩ := hl.covered g v hd
    obtain ⟨ho', hp⟩ := hk ho
    refine ⟨ho', ?_⟩
    rw [hp, Memory.grant_bytes, if_neg, hb]
    rw [PageMap.frameOf_phys]
    exact hn _ (toNat_pageOf_lt_of_lt (e.toNat_lt_of_covers hg hv)) ho
  · intro a ha
    obtain ⟨g, hg, v, hv, ho, hp⟩ := hl.confined a ha
    obtain ⟨ho', hp'⟩ := hk ho
    exact ⟨g, hg, v, hv, ho', hp'.trans hp⟩

theorem backing (hp : 0 < chk.toNat) (he : chk.toNat ≤ 4096) {g : SectionHeader}
    (hg : g ∈ e.sections) (ht : g.Covers ptr)
    (hrun : s.backing env h ptr chk = .ok (paddr, s1)) :
    Loading e done s1 ∧ s1.Own (pageOf ptr) ∧ paddr = s1.process.phys ptr := by
  obtain ⟨ha, hc⟩ :=
    Memory.backing_cases hp he (fun f hf => (hl.ready.fresh f hf).1) hrun
  rcases hc with ⟨hr, rfl⟩ | ⟨hz, f, rest, hs, rfl⟩
  · exact ⟨hl, ⟨hl.backed g hg ptr ht hr, hr⟩, ha⟩
  have hf := (hl.ready.fresh f (hs ▸ mem_cons_self)).1
  exact ⟨hl.grant hs hz, (Memory.grant_self_own s rest ptr _ _ hf).1, ha⟩

theorem piece (hp : 0 < chk.toNat) (hle : chk.toNat ≤ 4096)
    (hfit : ptr.toNat % 4096 + (h.pieceBytes e.file fptr chk).length ≤ 4096)
    (hco : ∀ k < (h.pieceBytes e.file fptr chk).length, ∃ g ∈ e.sections,
      g.Covers (ptr + ofNat 64 k))
    (hke : ∀ g v, done g v → ∀ k < (h.pieceBytes e.file fptr chk).length, v =
      ptr + ofNat 64 k → (h.pieceBytes e.file fptr chk)[k]? = some (g.byteAt e.file v))
    (hd : ∀ g v, done' g v → done g v ∨ (g ∈ e.sections ∧ g.Covers v ∧
      ∃ k < (h.pieceBytes e.file fptr chk).length, v = ptr + ofNat 64 k ∧
      (h.pieceBytes e.file fptr chk)[k]? = some (g.byteAt e.file v)))
    (hrun : s.loadPiece env e.file h ptr fptr chk = .ok s') : Loading e done' s' := by
  obtain ⟨paddr, s1, hba, hr, hu, hby, hs⟩ :=
    Memory.loadPiece_spec hp hle hrun
  obtain ⟨g₀, hg₀, hptr⟩ := hco 0 (Memory.length_pieceBytes_pos h e.file fptr hp)
  rw [BitVec.add_zero] at hptr
  obtain ⟨hl1, hw, rfl⟩ := hl.backing hp hle hg₀ hptr hba
  generalize hval : h.pieceBytes e.file fptr chk = values at *
  have he : values.length ≤ 2 ^ 64 := by omega
  have ho' : ∀ n, s'.Own n ↔ s1.Own n := by
    intro n
    unfold Memory.Own
    rw [hr]
  -- the bytes of the piece, by their addresses
  have ht : ∀ k < values.length, s1.process.phys (ptr + ofNat 64 k) =
      s1.process.phys ptr + ofNat 64 k ∧ s1.Own (pageOf (ptr + ofNat 64 k)) := by
    intro k hk
    have hpa : ptr.toNat % 4096 + k < 4096 := by omega
    exact ⟨PageMap.phys_add hpa, (PageMap.pageOf_add hpa).symm ▸ hw⟩
  -- another address of the process is not written
  have hot : ∀ v : BitVec 64, v.toNat < 2 ^ 47 → s1.Own (pageOf v) →
      (∀ k < values.length, v ≠ ptr + ofNat 64 k) →
      s'.bytes (s1.process.phys v) = s1.bytes (s1.process.phys v) := by
    intro v hv ho hne
    rw [hby]
    apply storeFrom_of_notMem
    intro hm
    obtain ⟨k, hk, hq⟩ := mem_span.mp hm
    rw [← (ht k hk).1] at hq
    obtain ⟨g, hg, hc⟩ := hco k hk
    exact hne k hk (hl1.ready.eq_of_phys_eq hv (e.toNat_lt_of_covers hg hc) ho (ht k hk).2 hq)
  have hh : ∀ k < values.length, ∀ b, values[k]? = some b →
      s'.bytes (s1.process.phys (ptr + ofNat 64 k)) = b := by
    intro k hk b hb
    have hst := storeFrom_add (m := s1.bytes) (a := s1.process.phys ptr) he hk
    rw [hb, ← (ht k hk).1] at hst
    rw [hby]
    exact (Option.some.inj hst).symm
  have hre : s'.Ready := by
    have := hl1.ready
    refine ⟨?_, ?_, ?_⟩
    · simpa only [ho', hr] using this.apart
    · simpa only [ho', hr, hu] using this.fresh
    · simpa only [hu] using this.nodup
  refine ⟨hre, ?_, ?_, ?_, ?_⟩
  · intro g hg v hv hf
    rw [hr] at hf ⊢
    exact hl1.backed g hg v hv hf
  · intro g v hn
    rcases hd g v hn with hold | ⟨hg, hv, -⟩
    · exact hl.covered g v hold
    · exact ⟨hg, hv⟩
  · intro g v hn
    rw [ho', hr]
    rcases hd g v hn with hold | ⟨hg, hv, k, hk, rfl, hb⟩
    · obtain ⟨ho, hy⟩ := hl1.written g v hold
      refine ⟨ho, ?_⟩
      by_cases hi : ∃ k < values.length, v = ptr + ofNat 64 k
      · obtain ⟨k, hk, rfl⟩ := hi
        exact hh k hk _ (hke g _ hold k hk rfl)
      push Not at hi
      obtain ⟨hg, hv⟩ := hl.covered g v hold
      rw [hot v (e.toNat_lt_of_covers hg hv) ho hi]
      exact hy
    · exact ⟨(ht k hk).2, hh k hk _ hb⟩
  intro a ha
  rw [hs, mem_append] at ha
  rcases ha with hold | hsp
  · obtain ⟨g, hg, v, hv, ho, hph⟩ := hl1.confined a hold
    rw [hr]
    exact ⟨g, hg, v, hv, (ho' _).mpr ho, hph⟩
  obtain ⟨k, hk, rfl⟩ := mem_span.mp hsp
  obtain ⟨g, hg, hc⟩ := hco k hk
  rw [hr]
  exact ⟨g, hg, _, hc, (ho' _).mpr (ht k hk).2, (ht k hk).1⟩

end

end Loading

/-! ## Sections -/

section Sections

variable {e : Executable} {h : SectionHeader} {pre after : List SectionHeader}

/-- What has been loaded when the loop has come to an address of a section. -/
def doneUpTo (before : List SectionHeader) (h : SectionHeader) (ptr : BitVec 64)
    (g : SectionHeader) (v : BitVec 64) : Prop :=
  (g ∈ before ∧ g.Covers v) ∨ (g = h ∧ h.Covers v ∧ v.toNat < ptr.toNat)

theorem pieceBytes_data (hd : h.type ≠ .noData) (file : BitVec 64 → BitVec 8)
    (ptr chk : BitVec 64) :
    (h.pieceBytes file (h.fileOffset + (ptr - h.address)) chk).length = chk.toNat ∧
      ∀ k < chk.toNat, (h.pieceBytes file (h.fileOffset + (ptr - h.address)) chk)[k]? =
        some (h.byteAt file (ptr + ofNat 64 k)) := by
  unfold pieceBytes byteAt
  rw [if_pos hd]
  refine ⟨by rw [length_map, length_range], ?_⟩
  intro k hk
  rw [getElem?_map, getElem?_range hk, if_pos hd, Option.map_some, add_assoc, sub_add_eq_add_sub]

theorem pieceBytes_noData (hd : h.type = .noData) (file : BitVec 64 → BitVec 8)
    (fptr chk : BitVec 64) :
    (h.pieceBytes file fptr chk).length = 4096 ∧
      ∀ k < 4096, (h.pieceBytes file fptr chk)[k]? = some 0 := by
  unfold pieceBytes
  rw [if_neg (not_not.mpr hd)]
  refine ⟨length_replicate, ?_⟩
  intro k hk
  exact getElem?_replicate_of_lt hk

variable {ptr v chk : BitVec 64}

theorem toNat_add_ofNat {k : ℕ} (hk : ptr.toNat + k < 2 ^ 64) :
    (ptr + ofNat 64 k).toNat = ptr.toNat + k := by
  rw [toNat_add, toNat_ofNat]
  omega

theorem exists_add_ofNat (he : ptr.toNat ≤ v.toNat) :
    v = ptr + ofNat 64 (v.toNat - ptr.toNat) := by
  apply eq_of_toNat_eq
  rw [toNat_add_ofNat (by omega)]
  omega

theorem mem_of_split (hsp : e.sections = pre ++ h :: after) : h ∈ e.sections :=
  hsp ▸ mem_append_right pre mem_cons_self

theorem toNat_fin (hm : h ∈ e.sections) (hld : h.IsLoaded) :
    (h.address + h.size).toNat = h.address.toNat + h.size.toNat := by
  have hb := e.user h hm hld
  rw [toNat_add]
  omega

theorem doneUpTo_next {g : SectionHeader} (hd : doneUpTo pre h (ptr + chk) g v) :
    doneUpTo pre h ptr g v ∨ (g = h ∧ h.Covers v ∧ ptr.toNat ≤ v.toNat ∧
      v.toNat < (ptr + chk).toNat) := by
  rcases hd with hold | ⟨rfl, hv, hlt⟩
  · exact .inl (.inl hold)
  rcases Nat.lt_or_ge v.toNat ptr.toNat with hb | hf
  · exact .inl (.inr ⟨rfl, hv, hb⟩)
  · exact .inr ⟨rfl, hv, hf, hlt⟩

section OneSection

variable (hsp : e.sections = pre ++ h :: after) (hld : h.IsLoaded)
include hsp hld

variable {env : Surroundings} {s s' : Memory} (hstart : h.address.toNat ≤ ptr.toNat)
  (hlt : ptr.toNat < h.address.toNat + h.size.toNat) (hl : Loading e (doneUpTo pre h ptr) s)
  (hrun : s.loadPiece env e.file h ptr (h.fileOffset + (ptr - h.address)) (Memory.chkSize ptr (h.address + h.size)) = .ok s')
include hstart hlt hl hrun

theorem Loading.dataPiece (ha : h.type ≠ .noData) :
    Loading e (doneUpTo pre h (ptr + chkSize ptr (h.address + h.size))) s' := by
  have hm := mem_of_split hsp
  have hf := toNat_fin hm hld
  have hh := Memory.toNat_chkSize (hf.symm ▸ hlt)
  have hn := Memory.toNat_add_chkSize (hf.symm ▸ hlt)
  rw [hf] at hh hn
  obtain ⟨he, ht⟩ :=
    pieceBytes_data ha e.file ptr (chkSize ptr (h.address + h.size))
  have hc : ∀ k < (chkSize ptr (h.address + h.size)).toNat, h.Covers (ptr + ofNat 64 k) := by
    intro k hk
    refine ⟨hld, ?_, ?_⟩ <;> rw [toNat_add_ofNat (by omega)] <;> omega
  refine hl.piece (by omega) (by omega) (by omega) ?_ ?_ ?_ hrun
  · intro k hk
    exact ⟨h, hm, hc k (he ▸ hk)⟩
  · intro g v hd k hk hv
    rw [he] at hk
    rcases hd with ⟨hg, hgv⟩ | ⟨-, -, hb⟩
    · -- no section that was loaded pre has the address
      exact absurd hgv ((e.not_covers_of_split hsp (hv ▸ hc k hk)).1 g hg)
    · rw [hv, toNat_add_ofNat (by omega)] at hb
      omega
  intro g v hd
  rcases doneUpTo_next hd with hold | ⟨rfl, hv, hr, ho⟩
  · exact .inl hold
  have hk : v.toNat - ptr.toNat < (chkSize ptr (g.address + g.size)).toNat := by omega
  refine .inr ⟨hm, hv, v.toNat - ptr.toNat, he ▸ hk, exists_add_ofNat hr, ?_⟩
  rw [ht _ hk, ← exists_add_ofNat hr]

theorem Loading.zeroPiece (hfit : e.ZeroFillFits) (hd : h.type = .noData)
    (ha : ptr.toNat % 4096 = 0) :
    Loading e (doneUpTo pre h (ptr + chkSize ptr (h.address + h.size))) s' := by
  have hm := mem_of_split hsp
  have hf := toNat_fin hm hld
  have hc := Memory.toNat_chkSize (hf.symm ▸ hlt)
  have hne := Memory.toNat_add_chkSize (hf.symm ▸ hlt)
  rw [hf] at hc hne
  obtain ⟨he, ht⟩ := pieceBytes_noData hd e.file (h.fileOffset + (ptr - h.address))
    (chkSize ptr (h.address + h.size))
  -- what is cleared belongs to the section or follows it in its last page
  have hre : ∀ k < 4096, h.Covers (ptr + ofNat 64 k) ∨
      (h.address.toNat + h.size.toNat ≤ (ptr + ofNat 64 k).toNat ∧
        (ptr + ofNat 64 k).toNat / 4096 = (h.address.toNat + h.size.toNat - 1) / 4096) := by
    intro k hk
    have hn : (ptr + ofNat 64 k).toNat = ptr.toNat + k := toNat_add_ofNat (by omega)
    rcases Nat.lt_or_ge (ptr.toNat + k) (h.address.toNat + h.size.toNat) with hi | hu
    · refine .inl ⟨hld, ?_, ?_⟩ <;> rw [hn] <;> omega
    · refine .inr ⟨?_, ?_⟩ <;> rw [hn] <;> omega
  have hr := (hfit pre h after hsp hld hd).2
  refine hl.piece (by omega) (by omega) (by omega) ?_ ?_ ?_ hrun
  · intro k hk
    rw [he] at hk
    rcases hre k hk with hv | ⟨hge, hp⟩
    · exact ⟨h, hm, hv⟩
    rcases hr _ hge hp with ⟨g, hg, hv⟩ | ⟨g, hg, hv, -⟩
    · exact ⟨g, hsp ▸ mem_append_right pre (mem_cons_of_mem h hg), hv⟩
    · exact ⟨g, hsp ▸ mem_append_left (h :: after) hg, hv⟩
  · intro g v ho k hk hv
    rw [he] at hk
    rw [ht k hk]
    rcases ho with ⟨hg, hgv⟩ | ⟨-, -, hb⟩
    · rcases hre k hk with hs | ⟨hge, hp⟩
      · exact absurd hgv ((e.not_covers_of_split hsp (hv ▸ hs)).1 g hg)
      rw [← hv] at hge hp
      rcases hr v hge hp with ⟨g', hg', hv'⟩ | ⟨g', hg', hv', hz⟩
      · exact absurd hv' (e.not_covers_both hsp hg hg' hgv)
      have hi : ∀ {g}, g ∈ pre → g ∈ e.sections := fun hg =>
        hsp ▸ mem_append_left (h :: after) hg
      rw [e.eq_of_covers (hi hg) (hi hg') hgv hv', hz]
    · rw [hv, toNat_add_ofNat (by omega)] at hb
      omega
  · intro g v ho
    rcases doneUpTo_next ho with hold | ⟨rfl, hv, hfr, hto⟩
    · exact .inl hold
    have hk : v.toNat - ptr.toNat < 4096 := by omega
    refine .inr ⟨hm, hv, v.toNat - ptr.toNat, he.symm ▸ hk, exists_add_ofNat hfr, ?_⟩
    rw [ht _ hk, byteAt, if_neg (not_not.mpr hd)]

end OneSection

def doneSections (before : List SectionHeader) (g : SectionHeader) (v : BitVec 64) : Prop :=
  g ∈ before ∧ g.Covers v

variable {s s' : Memory}

theorem Loading.mono {done done' : SectionHeader → BitVec 64 → Prop} (hl : Loading e done s)
    (he : ∀ g v, done' g v → done g v) : Loading e done' s where
  ready := hl.ready
  backed := hl.backed
  covered g v hd := hl.covered g v (he g v hd)
  written g v hd := hl.written g v (he g v hd)
  confined := hl.confined

section

variable (hfit : e.ZeroFillFits)
include hfit

variable {env : Surroundings}

section

variable (hsp : e.sections = pre ++ h :: after)
include hsp

theorem Loading.loaded (hld : h.IsLoaded) (hl : Loading e (doneUpTo pre h h.address) s) :
    Ensures (fun _ => False) (loadSection env e.file s h)
      (Loading e (doneUpTo pre h (h.address + h.size))) := by
  have hm := mem_of_split hsp
  have hf := toNat_fin hm hld
  -- pieces without data start at a page until the section ends
  refine .mono (Memory.loadSection_rule (by omega) hld
    (fun ptr s => Loading e (doneUpTo pre h ptr) s ∧ (h.type = .noData →
      ptr.toNat % 4096 = 0 ∨ ptr.toNat = h.address.toNat + h.size.toNat)) ?_ ?_) ?_
  · rintro ptr s1 hstart hlt ⟨hl1, hp⟩
    have he := Memory.toNat_add_chkSize (hf.symm ▸ hlt)
    rw [hf] at he
    apply Ensures.of_returns
    intro s2 hrun
    by_cases hd : h.type = .noData
    · have ha : ptr.toNat % 4096 = 0 := (hp hd).resolve_right hlt.ne
      refine ⟨hl1.zeroPiece hsp hld hstart hlt hrun hfit hd ha, ?_⟩
      intro _
      omega
    · refine ⟨hl1.dataPiece hsp hld hstart hlt hrun hd, ?_⟩
      intro hn
      exact absurd hn hd
  · refine ⟨hl, ?_⟩
    intro hd
    exact .inl (hfit pre h after hsp hld hd).1
  · intro s' hs'
    exact hs'.1

theorem Loading.section (hl : Loading e (doneSections pre) s) :
    Ensures (fun _ => False) (loadSection env e.file s h)
      (Loading e (doneSections (pre ++ [h]))) := by
  by_cases hld : h.IsLoaded
  · have hf := toNat_fin (mem_of_split hsp) hld
    have hl₀ : Loading e (doneUpTo pre h h.address) s := by
      refine hl.mono ?_
      rintro g v (hold | ⟨-, hv, hlt⟩)
      · exact hold
      · exact absurd hv.2.1 (Nat.not_le.mpr hlt)
    refine .mono (hl₀.loaded hfit hsp hld) ?_
    intro s' hl'
    refine hl'.mono ?_
    rintro g v ⟨hg, hv⟩
    rcases mem_append.mp hg with hold | hs
    · exact .inl ⟨hold, hv⟩
    obtain rfl := mem_singleton.mp hs
    exact .inr ⟨rfl, hv, hf ▸ hv.2.2⟩
  · unfold loadSection
    rw [if_neg hld]
    refine .ok (hl.mono ?_)
    rintro g v ⟨hg, hv⟩
    rcases mem_append.mp hg with hold | hs
    · exact ⟨hold, hv⟩
    · exact absurd (mem_singleton.mp hs ▸ hv.1) hld

end

theorem loaded_of_zeroFillFits (hr : s.Ready) (hb : e.Backed s) (hs : s.stores = [])
    (hrun : e.load env s = .ok s') : e.Loaded s' := by
  have hstart : Loading e (doneSections []) s := by
    refine ⟨hr, hb, ?_, ?_, ?_⟩
    · rintro g v ⟨hg, -⟩
      exact absurd hg not_mem_nil
    · rintro g v ⟨hg, -⟩
      exact absurd hg not_mem_nil
    intro a ha
    rw [hs] at ha
    exact absurd ha not_mem_nil
  have hl : Loading e (doneSections e.sections) s' :=
    (Ensures.foldlM (fun pre s => Loading e (doneSections pre) s)
      (fun pre h after s hsp hl => hl.section hfit hsp) hstart).of_ok hrun
  constructor
  · intro h hh v hv
    obtain ⟨ho, hy⟩ := hl.written h v ⟨hh, hv⟩
    exact ⟨_, ho.translate, hy⟩
  · intro a ha
    obtain ⟨h, hh, v, hv, ho, rfl⟩ := hl.confined a ha
    exact ⟨h, hh, v, hv, ho.translate⟩

end

end Sections

end AexKernel.Elf
