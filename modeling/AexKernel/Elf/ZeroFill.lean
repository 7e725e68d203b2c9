import AexKernel.Elf.ProgramImage

/-! # Where cleared bytes do not fit

`memset64(kaddr, 0, 512)` clears a page from the start of a piece on. -/

namespace AexKernel.Elf

open Library Mem List Function BitVec Memory

def Executable.Owned (e : Executable) (s : Memory) : Prop :=
  ∀ h ∈ e.sections, ∀ v, h.Covers v → s.Own (pageOf v)

section Mapped

variable {e : Executable} {h : SectionHeader} {env : Surroundings} {s s₀ : Memory} {a : BitVec 64}

/-- What a pass writes through a pagemap that has the page. -/
structure PieceWritten (e : Executable) (m : PageMap) (h : SectionHeader) (ptr : BitVec 64)
    (s s' : Memory) : Prop where
  bytes : s'.bytes = storeFrom s.bytes (m.phys ptr) (h.pieceBytes e.file
    (h.fileOffset + (ptr - h.address)) (Memory.chkSize ptr (h.address + h.size)))
  stores : s'.stores = s.stores ++ span (m.phys ptr) (h.pieceBytes e.file
    (h.fileOffset + (ptr - h.address)) (Memory.chkSize ptr (h.address + h.size))).length

theorem Executable.Owned.congr (ho : e.Owned s₀) (hp : s.process = s₀.process) : e.Owned s := by
  unfold Executable.Owned Own
  rw [hp]
  exact ho

theorem Executable.Owned.piece (ho : e.Owned s) (hk : env.InKernel)
    (hm : h ∈ e.sections) (hl : h.IsLoaded) {ptr : BitVec 64}
    (hst : h.address.toNat ≤ ptr.toNat) (ht : ptr.toNat < h.address.toNat + h.size.toNat) :
    Ensures (fun _ => True) (s.loadPiece env e.file h ptr (h.fileOffset + (ptr - h.address))
      (chkSize ptr (h.address + h.size))) fun s' =>
        s'.process = s.process ∧ PieceWritten e s.process h ptr s s' := by
  have hf := toNat_fin hm hl
  have hc := toNat_chkSize (hf.symm ▸ ht)
  rw [hf] at hc
  refine .mono (loadPiece_mapped hk (by omega) (by omega) (ho h hm ptr ⟨hl, hst, ht⟩).2) ?_
  rintro s' ⟨hp, hb, hs⟩
  exact ⟨hp, hb, hs⟩

theorem Executable.Owned.section (ho : e.Owned s₀) (hk : env.InKernel)
    (hm : h ∈ e.sections) (hl : h.IsLoaded) (I : BitVec 64 → Memory → Prop)
    (hp : ∀ ptr s s', h.address.toNat ≤ ptr.toNat →
      ptr.toNat < h.address.toNat + h.size.toNat → I ptr s →
      PieceWritten e s₀.process h ptr s s' → I (ptr + chkSize ptr (h.address + h.size)) s')
    (hr : s.process = s₀.process) (hI : I h.address s) :
    Ensures (fun _ => True) (loadSection env e.file s h) fun s' =>
      s'.process = s₀.process ∧ I (h.address + h.size) s' := by
  have hb := e.user h hm hl
  refine loadSection_rule (by omega) hl
    (fun ptr s => s.process = s₀.process ∧ I ptr s) ?_ ⟨hr, hI⟩
  rintro ptr s1 hs ht ⟨hpr1, hI₁⟩
  refine .mono ((ho.congr hpr1).piece hk hm hl hs ht) ?_
  rintro s2 ⟨hpr2, hw⟩
  rw [hpr1] at hpr2 hw
  exact ⟨hpr2, hp ptr s1 s2 hs ht hI₁ hw⟩

variable {part before after : List SectionHeader}

theorem Executable.Owned.sections (ho : e.Owned s₀) (hk : env.InKernel) (P : Memory → Prop)
    (hp : ∀ h ∈ part, h ∈ e.sections)
    (hi : ∀ h ∈ part, h.IsLoaded → ∀ ptr s s', h.address.toNat ≤ ptr.toNat →
      ptr.toNat < h.address.toNat + h.size.toNat → P s → PieceWritten e s₀.process h ptr s s' →
      P s')
    (hr : s.process = s₀.process) (hP : P s) :
    Ensures (fun _ => True) (part.foldlM (Memory.loadSection env e.file) s) fun s' =>
      s'.process = s₀.process ∧ P s' := by
  refine .foldlM (fun _ s => s.process = s₀.process ∧ P s) ?_ ⟨hr, hP⟩
  rintro before h after s1 hs ⟨hpr1, hP₁⟩
  have hm : h ∈ part := hs ▸ mem_append_right before mem_cons_self
  by_cases hl : h.IsLoaded
  · exact ho.section hk (hp h hm) hl (fun _ s => P s) (hi h hm hl) hpr1 hP₁
  unfold loadSection
  rw [if_neg hl]
  exact .ok ⟨hpr1, hP₁⟩

theorem Executable.Owned.load (ho : e.Owned s₀) (hk : env.InKernel)
    (hs : e.sections = before ++ h :: after) (hl : h.IsLoaded) (I : BitVec 64 → Memory → Prop)
    (hI : ∀ s, I h.address s)
    (hp : ∀ ptr s s', h.address.toNat ≤ ptr.toNat → ptr.toNat < h.address.toNat + h.size.toNat →
      I ptr s → PieceWritten e s₀.process h ptr s s' → I (ptr + chkSize ptr (h.address +
      h.size)) s')
    (he : ∀ g ∈ after, g.IsLoaded → ∀ ptr s s', g.address.toNat ≤ ptr.toNat →
      ptr.toNat < g.address.toNat + g.size.toNat → I (h.address + h.size) s →
      PieceWritten e s₀.process g ptr s s' → I (h.address + h.size) s') :
    Ensures (fun _ => True) (e.load env s₀) fun s' =>
      s'.process = s₀.process ∧ I (h.address + h.size) s' := by
  have hb : ∀ g ∈ before, g ∈ e.sections := fun g hg =>
    hs ▸ mem_append_left (h :: after) hg
  have ha : ∀ g ∈ after, g ∈ e.sections := fun g hg =>
    hs ▸ mem_append_right before (mem_cons_of_mem h hg)
  unfold Executable.load
  rw [hs, foldlM_append]
  refine .bind (ho.sections hk (fun _ => True) hb
    (fun _ _ _ _ _ _ _ _ _ _ => trivial) rfl trivial) ?_
  rintro s1 ⟨hpr1, -⟩
  rw [foldlM_cons]
  refine .bind (ho.section hk (mem_of_split hs) hl I hp hpr1 (hI s1)) ?_
  rintro s2 ⟨hpr2, hI₂⟩
  exact ho.sections hk (I (h.address + h.size)) ha he hpr2 hI₂

theorem Executable.Owned.exists_load (ho : e.Owned s) (hk : env.InKernel) :
    ∃ s', e.load env s = .ok s' := by
  obtain ⟨s', hr, -⟩ := (ho.sections hk (fun _ => True) (fun _ hg => hg)
    (fun _ _ _ _ _ _ _ _ _ _ => trivial) rfl trivial).exists_ok
  exact ⟨s', hr⟩

end Mapped

/-! ## The frame behind a section -/

section Behind

variable {e : Executable} {h : SectionHeader} {before after : List SectionHeader}
  {env : Surroundings} {s : Memory}

theorem Executable.Owned.clears_first (ho : e.Owned s) (he : env.InKernel)
    (hs : e.sections = before ++ h :: after) (hlo : h.IsLoaded) (hd : h.type = .noData) :
    Ensures (fun _ => True) (e.load env s) fun s' => s'.process = s.process ∧
      ∀ k < 4096, s.process.phys h.address + BitVec.ofNat 64 k ∈ s'.stores := by
  have hm := mem_of_split hs
  have hi := toNat_fin hm hlo
  have hsi : h.size.toNat ≠ 0 := fun hz => hlo.2 (eq_of_toNat_eq hz)
  refine .mono (ho.load he hs hlo (fun ptr s' => h.address.toNat < ptr.toNat →
    ∀ k < 4096, s.process.phys h.address + BitVec.ofNat 64 k ∈ s'.stores) ?_ ?_ ?_) ?_
  · intro s' hl
    exact absurd hl (lt_irrefl _)
  · intro ptr s1 s2 ht hl hI hw _ k hk
    rw [hw.stores, mem_append]
    by_cases hf : ptr = h.address
    · -- the piece at the start of the section
      rw [(pieceBytes_noData hd _ _ _).1, hf]
      exact .inr (mem_span.mpr ⟨k, hk, rfl⟩)
    · have hn : ptr.toNat ≠ h.address.toNat := fun hq => hf (eq_of_toNat_eq hq)
      exact .inl (hI (by omega) k hk)
  · intro g _ _ ptr s1 s2 _ _ hI hw hl k hk
    rw [hw.stores, mem_append]
    exact .inl (hI hl k hk)
  · rintro s' ⟨hp, hI⟩
    exact ⟨hp, hI (by omega)⟩

theorem Executable.Owned.not_loaded_of_offset (ho : e.Owned s) (hk : env.InKernel)
    (hs : e.sections = before ++ h :: after) (hlo : h.IsLoaded) (hd : h.type = .noData)
    (hof : h.address.toNat % 4096 ≠ 0)
    (hro : (frameOf (s.process (pageOf h.address))).toNat + 1 < 2 ^ 52)
    (hn : ∀ n, (frameOf (s.process n)).toNat ≠
      (frameOf (s.process (pageOf h.address))).toNat + 1) :
    ∃ s', e.load env s = .ok s' ∧ ¬ e.Loaded s' := by
  obtain ⟨s', hr, hpr, ht⟩ :=
    (ho.clears_first hk hs hlo hd).exists_ok
  refine ⟨s', hr, ?_⟩
  intro hl
  obtain ⟨g, -, v, -, hv⟩ := hl.confined _ (ht (4096 - h.address.toNat % 4096) (by omega))
  have hp : s.process.phys v =
      s.process.phys h.address + BitVec.ofNat 64 (4096 - h.address.toNat % 4096) := by
    unfold PageMap.translate at hv
    rw [hpr] at hv
    split_ifs at hv
    exact Option.some.inj hv
  have hf := congrArg (fun a => (frameOf a).toNat) hp
  have hh := PageMap.toNat_phys s.process h.address
  rw [PageMap.frameOf_phys, toNat_frameOf (_ + _), toNat_add, hh, toNat_ofNat] at hf
  exact hn (pageOf v) (by omega)

end Behind

/-! ## The rest of the last page -/

section Rest

variable {e : Executable} {h : SectionHeader} {before after : List SectionHeader}
  {env : Surroundings} {s : Memory} {v : BitVec 64}

variable {ptr a : BitVec 64} {s' s1 s2 : Memory}

theorem PieceWritten.bytes_eq_zero {m : PageMap} (hw : PieceWritten e m h ptr s s')
    (hd : h.type = .noData) (ha : a ∈ span (m.phys ptr) 4096 ∨ s.bytes a = 0) :
    s'.bytes a = 0 := by
  obtain ⟨hl, hg⟩ := pieceBytes_noData hd e.file (h.fileOffset + (ptr - h.address))
    (chkSize ptr (h.address + h.size))
  rw [hw.bytes]
  generalize h.pieceBytes e.file (h.fileOffset + (ptr - h.address))
    (chkSize ptr (h.address + h.size)) = values at hl hg
  have hz : ∀ b ∈ values, b = 0 := by
    intro b hb
    obtain ⟨k, hk⟩ := getElem?_of_mem hb
    have ht : k < 4096 := hl ▸ (List.getElem?_eq_some_iff.mp hk).1
    rw [hg k ht] at hk
    exact (Option.some.inj hk).symm
  by_cases hi : a ∈ span (m.phys ptr) values.length
  · exact storeFrom_of_mem (P := (· = 0)) (by rw [hl]; decide) hz hi
  rw [storeFrom_of_notMem hi]
  exact ha.resolve_left (hl ▸ hi)

theorem PieceWritten.keeps_zero (hre : s.Ready) (ho : e.Owned s) (hm : h ∈ e.sections)
    (hl : h.IsLoaded) (hv : v.toNat < 2 ^ 47) (hw : s.Own (pageOf v)) (hu : ¬ h.Covers v)
    (hst : h.address.toNat ≤ ptr.toNat) (ht : ptr.toNat < h.address.toNat + h.size.toNat)
    (hr : PieceWritten e s.process h ptr s1 s2) (hz : s1.bytes (s.process.phys v) = 0) :
    s2.bytes (s.process.phys v) = 0 := by
  by_cases hd : h.type = .noData
  · exact hr.bytes_eq_zero hd (.inr hz)
  have hf := toNat_fin hm hl
  have hh := toNat_chkSize (hf.symm ▸ ht)
  rw [hf] at hh
  rw [hr.bytes, storeFrom_of_notMem]
  · exact hz
  rw [(pieceBytes_data hd _ _ _).1]
  intro hi
  obtain ⟨k, hk, he⟩ := mem_span.mp hi
  rw [← PageMap.phys_add (by omega)] at he
  have hn : (ptr + BitVec.ofNat 64 k).toNat = ptr.toNat + k := toNat_add_ofNat (by omega)
  have hc : h.Covers (ptr + BitVec.ofNat 64 k) := by
    refine ⟨hl, ?_, ?_⟩ <;> rw [hn] <;> omega
  have hs := hre.eq_of_phys_eq hv (e.toNat_lt_of_covers hm hc) hw (ho h hm _ hc) he
  exact hu (hs ▸ hc)

theorem Executable.Owned.own_rest (ho : e.Owned s) (hm : h ∈ e.sections) (hl : h.IsLoaded)
    (hp : v.toNat / 4096 = (h.address.toNat + h.size.toNat - 1) / 4096) : s.Own (pageOf v) := by
  have hi : h.size.toNat ≠ 0 := fun hz => hl.2 (eq_of_toNat_eq hz)
  have ha : (h.address + BitVec.ofNat 64 (h.size.toNat - 1)).toNat =
      h.address.toNat + (h.size.toNat - 1) := toNat_add_ofNat (by omega)
  have hs : pageOf v = pageOf (h.address + BitVec.ofNat 64 (h.size.toNat - 1)) := by
    apply eq_of_toNat_eq
    rw [toNat_pageOf, toNat_pageOf, ha, hp]
    omega
  rw [hs]
  refine ho h hm _ ⟨hl, ?_, ?_⟩ <;> rw [ha] <;> omega

theorem Executable.Owned.clears_rest (hr : s.Ready) (ho : e.Owned s)
    (hk : env.InKernel) (hsp : e.sections = before ++ h :: after)
    (hl : h.IsLoaded) (hd : h.type = .noData) (ha : h.address.toNat % 4096 = 0)
    (hge : h.address.toNat + h.size.toNat ≤ v.toNat)
    (hpa : v.toNat / 4096 = (h.address.toNat + h.size.toNat - 1) / 4096)
    (haf : ∀ g ∈ after, ¬ g.Covers v) :
    Ensures (fun _ => True) (e.load env s) fun s' => s'.process = s.process ∧
      s.process.phys v ∈ s'.stores ∧ s'.bytes (s.process.phys v) = 0 := by
  have hm := mem_of_split hsp
  have hb := e.user h hm hl
  have hf := toNat_fin hm hl
  have hsi : h.size.toNat ≠ 0 := fun hz => hl.2 (eq_of_toNat_eq hz)
  have hn := ho.own_rest hm hl hpa
  refine .mono (ho.load hk hsp hl (fun ptr s' =>
    (ptr.toNat % 4096 = 0 ∨ ptr.toNat = h.address.toNat + h.size.toNat) ∧
      (v.toNat < 4096 * ((ptr.toNat + 4095) / 4096) →
        s.process.phys v ∈ s'.stores ∧ s'.bytes (s.process.phys v) = 0)) ?_ ?_ ?_) ?_
  · intro s'
    refine ⟨.inl ha, ?_⟩
    intro ht
    omega
  · rintro ptr s1 s2 hst ht ⟨hp, hI⟩ hw
    have he := toNat_add_chkSize (hf.symm ▸ ht)
    rw [hf] at he
    refine ⟨by omega, ?_⟩
    intro hv
    rw [hw.stores, (pieceBytes_noData hd _ _ _).1, mem_append]
    rcases Nat.lt_or_ge v.toNat ptr.toNat with hbe | hfr
    · obtain ⟨hs, hz⟩ := hI (by omega)
      exact ⟨.inl hs, hw.bytes_eq_zero hd (.inr hz)⟩
    have hi : s.process.phys v ∈ span (s.process.phys ptr) 4096 := by
      refine mem_span.mpr ⟨v.toNat - ptr.toNat, by omega, ?_⟩
      rw [← PageMap.phys_add (by omega), ← exists_add_ofNat hfr]
    exact ⟨.inr hi, hw.bytes_eq_zero hd (.inl hi)⟩
  · rintro g hg hgl ptr s1 s2 hst ht ⟨hp, hI⟩ hw
    refine ⟨hp, ?_⟩
    intro hv
    obtain ⟨hs, hz⟩ := hI hv
    have hgm : g ∈ e.sections := hsp ▸ mem_append_right before (mem_cons_of_mem h hg)
    refine ⟨?_, hw.keeps_zero hr ho hgm hgl (by omega) hn (haf g hg) hst ht hz⟩
    rw [hw.stores, mem_append]
    exact .inl hs
  · rintro s' ⟨hpr, -, hI⟩
    exact ⟨hpr, hI (by omega)⟩

theorem Executable.Owned.not_loaded_of_rest (he : s.Ready) (ho : e.Owned s)
    (hk : env.InKernel) (hs : e.sections = before ++ h :: after)
    (hlo : h.IsLoaded) (hd : h.type = .noData) (hal : h.address.toNat % 4096 = 0)
    (hge : h.address.toNat + h.size.toNat ≤ v.toNat)
    (hp : v.toNat / 4096 = (h.address.toNat + h.size.toNat - 1) / 4096)
    (hf : ∀ g ∈ after, ¬ g.Covers v)
    (hbe : ∀ g ∈ before, g.Covers v → g.byteAt e.file v ≠ 0) :
    ∃ s', e.load env s = .ok s' ∧ ¬ e.Loaded s' := by
  have hm := mem_of_split hs
  have hbo := e.user h hm hlo
  have hw := ho.own_rest hm hlo hp
  obtain ⟨s', hr, hpr, hst, hz⟩ := (ho.clears_rest he hk hs hlo
    hd hal hge hp hf).exists_ok
  refine ⟨s', hr, ?_⟩
  intro hl
  have ht : ∀ {u a : BitVec 64}, s'.process.translate u = some a → s.process.phys u = a := by
    intro u a hu
    unfold PageMap.translate at hu
    rw [hpr] at hu
    split_ifs at hu
    exact Option.some.inj hu
  obtain ⟨g, hg, u, hu, hh⟩ := hl.confined _ hst
  have hsa : u = v := he.eq_of_phys_eq (e.toNat_lt_of_covers hg hu) (by omega)
    (ho g hg u hu) hw (ht hh)
  subst hsa
  obtain ⟨a, ha, hb⟩ := hl.contents g hg u hu
  rw [← ht ha, hz] at hb
  rw [hs, mem_append, mem_cons] at hg
  rcases hg with hg | rfl | hg
  · exact hbe g hg hu hb.symm
  · exact absurd hu.2.2 (Nat.not_lt.mpr hge)
  · exact hf g hg hu

end Rest

/-! ## The image as a whole -/

theorem Executable.load_keeps (e : Executable) {env : Surroundings} {s s' : Memory}
    (hre : s.Ready) (hu : e.load env s = .ok s') {n : PageNumber}
    (hfr : frameOf (s.process n) ≠ 0) : s'.process n = s.process n := by
  have hpi : ∀ (h : SectionHeader) (ptr fptr : BitVec 64) (chk : BitVec 64) (s1 s2 : Memory),
      0 < chk.toNat → chk.toNat ≤ 4096 →
      (∀ f ∈ s1.supply, f ≠ 0) ∧ s1.process n = s.process n →
      s1.loadPiece env e.file h ptr fptr chk = .ok s2 →
      (∀ f ∈ s2.supply, f ≠ 0) ∧ s2.process n = s.process n := by
    rintro h ptr fptr chk s1 s2 hp he ⟨hr, hs⟩ ha
    obtain ⟨paddr, s3, hb, hpr, hsu, -, -⟩ := loadPiece_spec hp he ha
    rw [hpr, hsu]
    obtain ⟨-, hc⟩ := backing_cases hp he hr hb
    rcases hc with ⟨-, rfl⟩ | ⟨hz, f, rest, hli, rfl⟩
    · exact ⟨hr, hs⟩
    refine ⟨fun g hg => hr g (hli ▸ mem_cons_of_mem f hg), ?_⟩
    rw [grant_process, update_of_ne]
    · exact hs
    rintro rfl
    exact hfr (hs ▸ hz)
  have ho : Ensures (fun _ => False) (e.load env s) fun s' =>
      (∀ f ∈ s'.supply, f ≠ 0) ∧ s'.process n = s.process n := by
    refine .foldlM (fun _ (s1 : Memory) => (∀ f ∈ s1.supply, f ≠ 0) ∧ s1.process n = s.process n) ?_
      ⟨fun f hf => (hre.fresh f hf).1, rfl⟩
    intro before h after s1 hsp hI
    by_cases hl : h.IsLoaded
    · have hm := mem_of_split hsp
      have hi := toNat_fin hm hl
      refine loadSection_rule (by omega) hl
        (fun _ s1 => (∀ f ∈ s1.supply, f ≠ 0) ∧ s1.process n = s.process n) ?_ hI
      intro ptr s2 hst ht hI₂
      have hh := toNat_chkSize (hi.symm ▸ ht)
      rw [hi] at hh
      apply Ensures.of_returns
      intro s3 ha
      exact hpi h ptr _ _ s2 s3 (by omega) (by omega) hI₂ ha
    · unfold loadSection
      rw [if_neg hl]
      exact .ok hI
  exact (ho.of_ok hu).2

def firstWindow : Surroundings where
  pagemap := ⟨0, 0, 0x7FFFFFFFFFFF, 0⟩
  findContiguous _ _ := 0xFFFF800000000000
  aligned _ _ := rfl

theorem firstWindow_inKernel : firstWindow.InKernel := by
  intro m n
  show 0xFFFF800000000000 ≤ (0xFFFF800000000000#64).toNat
  decide

def everySecond : Memory where
  process n := frameAddr (BitVec.ofNat 52 (2 * n.toNat + 2)) ||| 1
  kernel _ := 0
  bytes _ := 0
  supply := []

variable (n : PageNumber)

theorem toNat_frameOf_everySecond : (frameOf (everySecond.process n)).toNat = 2 * n.toNat + 2 := by
  show (frameOf (frameAddr (BitVec.ofNat 52 (2 * n.toNat + 2)) ||| 1)).toNat = _
  rw [frameOf_or, frameOf_frameAddr, show frameOf 1 = 0 from rfl]
  show (BitVec.ofNat 52 (2 * n.toNat + 2) ||| 0#52).toNat = _
  rw [or_zero, toNat_ofNat]
  omega

theorem everySecond_own : everySecond.Own n := by
  refine ⟨ne_zero_of_getLsbD (i := 0) (by simp [everySecond]) rfl, ?_⟩
  intro hz
  have hn := toNat_frameOf_everySecond n
  rw [hz] at hn
  exact absurd hn.symm (Nat.succ_ne_zero _)

theorem everySecond_ready : everySecond.Ready where
  apart m n _ _ _ _ he := by
    have hn := congrArg BitVec.toNat he
    rw [toNat_frameOf_everySecond, toNat_frameOf_everySecond] at hn
    apply eq_of_toNat_eq
    omega
  fresh _ hf := absurd hf not_mem_nil
  nodup := nodup_nil

theorem Executable.exists_not_loaded {e : Executable} (hf : ¬ e.ZeroFillFits) :
    ∃ s', e.load firstWindow everySecond = .ok s' ∧ ¬ e.Loaded s' := by
  have ho : e.Owned everySecond := fun _ _ v _ => everySecond_own (pageOf v)
  unfold Executable.ZeroFillFits at hf
  push Not at hf
  obtain ⟨before, h, after, hs, hl, hd, hfa⟩ := hf
  by_cases ha : h.address.toNat % 4096 = 0
  · obtain ⟨v, hg, hp, haf, hb⟩ := hfa ha
    exact ho.not_loaded_of_rest everySecond_ready firstWindow_inKernel hs hl hd
      ha hg hp haf hb
  refine ho.not_loaded_of_offset firstWindow_inKernel hs hl hd ha ?_ ?_
  · have hp := (pageOf h.address).isLt
    rw [toNat_frameOf_everySecond]
    omega
  · intro n
    rw [toNat_frameOf_everySecond, toNat_frameOf_everySecond]
    omega

/-- The image of a program is right in every process whose pages are backed exactly where what
`memset64` clears fits, and the pages of a process whose image is right were backed. -/
theorem Executable.loaded_iff_zeroFillFits (e : Executable) :
    ((∀ around s s', s.Ready → e.Backed s → s.stores = [] → e.load around s = .ok s' →
        e.Loaded s') ↔ e.ZeroFillFits) ∧
      ∀ around s s', s.Ready → e.load around s = .ok s' → e.Loaded s' → e.Backed s := by
  refine ⟨⟨?_, ?_⟩, ?_⟩
  · intro hall
    by_contra hfit
    obtain ⟨s', hrun, hnot⟩ := e.exists_not_loaded hfit
    exact hnot (hall firstWindow everySecond s' everySecond_ready
      (fun _ _ v _ _ => (everySecond_own (pageOf v)).1) rfl hrun)
  · intro hfit around s s' hre hba hst hrun
    exact loaded_of_zeroFillFits hfit hre hba hst hrun
  intro around s s' hre hrun hl h hh v hv hfr
  obtain ⟨a, ha, -⟩ := hl.contents h hh v hv
  rw [← e.load_keeps hre hrun hfr]
  intro hab
  unfold PageMap.translate at ha
  rw [if_pos hab] at ha
  cases ha

def pageExact : Executable where
  sections :=
    [{ name := ".data", type := .program, flags := 3, size := 0x10, address := 0x400010,
       fileOffset := 0x10 },
      { name := ".bss", type := .noData, flags := 3, size := 0x1000, address := 0x401000 }]
  file offset := offset.setWidth 8
  user := by decide +kernel
  disjoint := by decide +kernel

theorem pageExact_zeroFillFits : pageExact.ZeroFillFits := by
  intro before h after hs hl hd
  rcases mem_pair.mp (mem_of_split hs) with rfl | rfl
  · cases hd
  refine ⟨by decide, ?_⟩
  intro v hg hp
  simp only [reduceToNat, Nat.reduceAdd, Nat.reduceSub, Nat.reduceDiv, ofNat_eq_ofNat] at hg hp
  omega

theorem loaded_pageExact : ∃ s', pageExact.load firstWindow everySecond = .ok s' ∧
    pageExact.Loaded s' := by
  have hown : pageExact.Owned everySecond := fun _ _ v _ => everySecond_own (pageOf v)
  obtain ⟨s', hrun⟩ := hown.exists_load firstWindow_inKernel
  exact ⟨s', hrun, (Executable.loaded_iff_zeroFillFits pageExact).1.mpr pageExact_zeroFillFits
    firstWindow everySecond s' everySecond_ready
    (fun _ _ v _ _ => (everySecond_own (pageOf v)).1) rfl hrun⟩

def sharedPage : Executable where
  sections :=
    [{ name := ".data", type := .program, flags := 3, size := 0x10, address := 0x400000 },
      { name := ".bss", type := .noData, flags := 3, size := 0x10, address := 0x400010 }]
  file _ := 1
  user := by decide +kernel
  disjoint := by decide +kernel

def onePage : Memory where
  process n := if n = 0x400 then frameAddr 0x200 ||| 7 else 0
  kernel _ := 0
  bytes _ := 0
  supply := []

theorem frameOf_onePage : frameOf (onePage.process n) = if n = 0x400 then 0x200 else 0 := by
  show frameOf (if n = 0x400 then frameAddr 0x200 ||| 7 else 0) = _
  by_cases hn : n = 0x400
  · rw [if_pos hn, if_pos hn]
    decide
  · rw [if_neg hn, if_neg hn]
    rfl

theorem onePage_own_iff : onePage.Own n ↔ n = 0x400 := by
  unfold Own
  rw [frameOf_onePage]
  constructor
  · rintro ⟨-, hf⟩
    by_contra hn
    exact hf (if_neg hn)
  · rintro rfl
    exact ⟨by decide, by decide⟩

theorem onePage_ready : onePage.Ready where
  apart m n _ _ hm hn _ := ((onePage_own_iff m).mp hm).trans ((onePage_own_iff n).mp hn).symm
  fresh _ hf := absurd hf not_mem_nil
  nodup := nodup_nil

theorem sharedPage_owned : sharedPage.Owned onePage := by
  intro h hh v hv
  rw [onePage_own_iff]
  apply eq_of_toNat_eq
  rw [toNat_pageOf]
  rcases mem_pair.mp hh with rfl | rfl
  · have hl := hv.2
    simp only [reduceToNat, Nat.reduceAdd, ofNat_eq_ofNat] at hl ⊢
    omega
  · have hl := hv.2
    simp only [reduceToNat, Nat.reduceAdd, ofNat_eq_ofNat] at hl ⊢
    omega

theorem not_loaded_sharedPage : ¬ ∀ (e : Executable) around s s', s.Ready → e.Backed s →
    s.stores = [] → e.load around s = .ok s' → e.Loaded s' := by
  intro hall
  have hba : sharedPage.Backed onePage := fun h hh v hv _ => (sharedPage_owned h hh v hv).1
  have hsp : sharedPage.sections = [sharedPage.sections[0]] ++ sharedPage.sections[1] :: [] := rfl
  have hfr : (frameOf (onePage.process (pageOf sharedPage.sections[1].address))).toNat = 0x200 := by
    rw [frameOf_onePage]
    decide
  have hne : ∀ n, (frameOf (onePage.process n)).toNat ≠
      (frameOf (onePage.process (pageOf sharedPage.sections[1].address))).toNat + 1 := by
    intro n
    rw [hfr, frameOf_onePage]
    split_ifs <;> decide
  obtain ⟨s', hrun, hnot⟩ := sharedPage_owned.not_loaded_of_offset firstWindow_inKernel hsp
    (by decide) rfl (by decide) (by rw [hfr]; decide) hne
  exact hnot (hall sharedPage firstWindow onePage s' onePage_ready hba rfl hrun)

end AexKernel.Elf
