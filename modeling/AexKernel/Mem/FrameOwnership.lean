import AexKernel.Library.Run
import AexKernel.Mem.Phys

/-! # Who owns a physical frame

Runs of `Phys::alloc` and `Phys::free` in which every `free` gives back a region that an `alloc`
handed out. -/

namespace AexKernel.Mem

open Library List FramePiece Or

/-! ## Regions and configurations -/

/-- A region handed out by `Phys::alloc(amount)` at `addr`. -/
structure Region where
  addr : ℕ
  amount : ℤ
  deriving DecidableEq, Repr

namespace Region

def frames (r : Region) : ℕ := frameCount r.amount

def last (r : Region) : ℕ := r.addr + pageSize * r.frames

/-- The region contains the byte at `a`. -/
def Contains (r : Region) (a : ℕ) : Prop := r.addr ≤ a ∧ a < r.last

def Disjoint (r s : Region) : Prop := r.last ≤ s.addr ∨ s.last ≤ r.addr

instance : Std.Symm Disjoint := ⟨fun _ _ h => Or.symm h⟩

end Region

namespace FramePiece

/-- The address of frame `i` of a piece. -/
def frameAddr (p : FramePiece) (i : ℕ) : ℕ := p.start + pageSize * i

def last (p : FramePiece) : ℕ := p.start + pageSize * p.size

def InRange (p : FramePiece) (a : ℕ) : Prop := p.start ≤ a ∧ a < p.last

/-- A piece as the allocator may meet it. -/
structure Sound (p : FramePiece) : Prop where
  bits : p.size ≤ 32 * p.bitmap.length
  range : p.last ≤ 18446744073709551616
  size : p.size < 4294967296
  count : p.framesFree = clearBits p.bitmap p.size

end FramePiece

/-- A list of frame pieces with ascending, non-overlapping ranges. -/
structure Phys.Wf (phys : Phys) : Prop where
  sound : ∀ p ∈ phys.pieces, p.Sound
  ascending : phys.pieces.Pairwise fun p q => p.last ≤ q.start

/-- The frames whose bit is set before the first call (the frames marked at init). -/
def Phys.Marked (phys : Phys) (a : ℕ) : Prop :=
  ∃ p ∈ phys.pieces, ∃ i < p.size, bitAt p.bitmap i = true ∧ a = p.frameAddr i

/-- The allocator and the regions handed out and not yet freed. -/
structure Config where
  phys : Phys
  out : List Region

/-- A call into the allocator. -/
inductive Call where
  | alloc (amount : ℤ)
  | free (r : Region)

namespace Config

def step (c : Config) : Call → Except Fault Config
  | .alloc amount => do
    let (addr, phys) ← c.phys.alloc amount
    return ⟨phys, ⟨addr, amount⟩ :: c.out⟩
  | .free r => do
    let phys ← c.phys.free r.addr r.amount
    return ⟨phys, c.out.erase r⟩

/-- The calls the discipline admits. -/
def Legal (c : Config) : Call → Prop
  | .alloc _ => True
  | .free r => r ∈ c.out

/-- The ownership discipline, relative to the frames `marked` at init. -/
structure Owned (marked : ℕ → Prop) (c : Config) : Prop where
  inside : ∀ r ∈ c.out, ∃ p ∈ c.phys.pieces, p.start ≤ r.addr ∧ r.last ≤ p.last
  disjoint : c.out.Pairwise Region.Disjoint
  bits : ∀ p ∈ c.phys.pieces, ∀ i < p.size, bitAt p.bitmap i = true ↔
    marked (p.frameAddr i) ∨ ∃ r ∈ c.out, r.Contains (p.frameAddr i)
  /-- `frames_free` is the number of clear bits. -/
  count : ∀ p ∈ c.phys.pieces, p.framesFree = clearBits p.bitmap p.size

/-- A call fails no assertion and leaves no bitmap. -/
structure CallSafe (c : Config) (call : Call) : Prop where
  no_assert : ∀ condition, c.step call ≠ .error (.assertion condition)
  no_overrun : c.step call ≠ .error .outOfBounds
  free_local : ∀ r c', call = .free r → c.step call = .ok c' →
    c'.phys.pieces.length = c.phys.pieces.length ∧
    ∀ (k : ℕ) (p p' : FramePiece), c.phys.pieces[k]? = some p →
      c'.phys.pieces[k]? = some p' → p' ≠ p → p.InRange r.addr

end Config

/-- **Frame ownership** for the runs of legal and `allowed` calls from `phys`: the discipline holds
in every configuration reached, and the next call is safe. -/
def FrameOwnership (allowed : Config → Call → Prop) (phys : Phys) : Prop :=
  ∀ c, Reach Config.step (fun c call => c.Legal call ∧ allowed c call) ⟨phys, []⟩ c →
    c.Owned phys.Marked ∧ ∀ call, c.Legal call → allowed c call → c.CallSafe call

/-- Every region that is freed lies in the range of the first piece. -/
def FreesFirstPiece (c : Config) : Call → Prop
  | .alloc _ => True
  | .free r => ∃ first rest, c.phys.pieces = first :: rest ∧ first.InRange r.addr

/-! ## The invariant behind the discipline -/

namespace Config

/-- What runs preserve: the discipline, with every region aligned to the frames of its piece and
off the frames marked at init, on pieces of at most 2 GiB. -/
structure Inv (marked : ℕ → Prop) (c : Config) : Prop where
  sound : ∀ p ∈ c.phys.pieces, p.Sound
  small : ∀ p ∈ c.phys.pieces, p.size ≤ 524288
  ascending : c.phys.pieces.Pairwise fun p q => p.last ≤ q.start
  aligned : ∀ r ∈ c.out, 0 < r.frames ∧ ∃ p ∈ c.phys.pieces, ∃ lid,
    r.addr = p.frameAddr lid ∧ lid + r.frames ≤ p.size
  disjoint : c.out.Pairwise Region.Disjoint
  unmarked : ∀ r ∈ c.out, ∀ p ∈ c.phys.pieces, ∀ i < p.size, r.Contains (p.frameAddr i) →
    ¬ marked (p.frameAddr i)
  bits : ∀ p ∈ c.phys.pieces, ∀ i < p.size, bitAt p.bitmap i = true ↔
    marked (p.frameAddr i) ∨ ∃ r ∈ c.out, r.Contains (p.frameAddr i)

variable {marked : ℕ → Prop} {c : Config}

theorem Inv.owned (h : c.Inv marked) : c.Owned marked where
  inside r hr := by
    obtain ⟨_, p, hp, lid, ha, hf⟩ := h.aligned r hr
    refine ⟨p, hp, ?_, ?_⟩
    · rw [ha, FramePiece.frameAddr]
      exact Nat.le_add_right _ _
    · simp only [Region.last, last, ha, FramePiece.frameAddr, pageSize]
      omega
  disjoint := h.disjoint
  bits := h.bits
  count p hp := (h.sound p hp).count

variable {p q : FramePiece} {pieces before after rest : List FramePiece}

theorem pieces_apart (h : pieces.Pairwise fun p q => p.last ≤ q.start) (hp : p ∈ pieces)
    (hq : q ∈ pieces) : p = q ∨ p.last ≤ q.start ∨ q.last ≤ p.start := by
  induction h with
  | nil => cases hp
  | cons hh _ ih =>
    rcases mem_cons.mp hp with rfl | hp' <;> rcases mem_cons.mp hq with rfl | hq'
    · exact inl rfl
    · exact inr (inl (hh q hq'))
    · exact inr (inr (hh p hp'))
    · exact ih hp' hq'

variable {a lid i lid' frames available : ℕ}

theorem piece_unique (h : pieces.Pairwise fun p q => p.last ≤ q.start) (hp : p ∈ pieces)
    (hq : q ∈ pieces) (ha : p.InRange a) (hb : q.InRange a) : p = q := by
  rcases pieces_apart h hp hq with he | hl | hl
  · exact he
  · have h1 := ha.2; have h2 := hb.1; omega
  · have h1 := hb.2; have h2 := ha.1; omega

variable {r s : Region}

theorem contains_frameAddr (ha : r.addr = p.frameAddr lid) :
    r.Contains (p.frameAddr i) ↔ lid ≤ i ∧ i < lid + r.frames := by
  simp only [Region.Contains, Region.last, ha, FramePiece.frameAddr, pageSize]
  omega

theorem inRange_of_contains (hd : r.addr = p.frameAddr lid) (hf : lid + r.frames ≤ p.size)
    (ha : r.Contains a) : p.InRange a := by
  obtain ⟨h1, h2⟩ := ha
  rw [Region.last] at h2
  simp only [hd, FramePiece.frameAddr, InRange, last, pageSize] at *
  omega

theorem inRange_frameAddr (hi : i < p.size) : p.InRange (p.frameAddr i) := by
  simp only [InRange, last, FramePiece.frameAddr, pageSize]
  omega

theorem disjoint_of_clear (ha : pieces.Pairwise fun p q => p.last ≤ q.start) (hp : p ∈ pieces)
    (hq : q ∈ pieces) (hr : r.addr = p.frameAddr lid) (hf : lid + r.frames ≤ p.size)
    (hs : s.addr = q.frameAddr lid') (hsf : lid' + s.frames ≤ q.size) (ho : 0 < r.frames)
    (hp' : 0 < s.frames) (hc : ∀ i, lid ≤ i → i < lid + r.frames →
      ¬ s.Contains (p.frameAddr i)) :
    r.Disjoint s := by
  rcases pieces_apart ha hp hq with rfl | hl | hl
  · -- in one piece the runs of frame indices must not meet
    by_contra he
    have hm := hc (max lid lid')
    rw [contains_frameAddr hs] at hm
    simp only [Region.Disjoint, Region.last, hr, hs, FramePiece.frameAddr, pageSize] at he
    omega
  all_goals
    simp only [Region.Disjoint, Region.last, last, hr, hs, FramePiece.frameAddr, pageSize] at *
    omega

/-! ## What the calls do -/

theorem alloc_address {lid : ℤ} (hs : p.Sound) (hm : p.size ≤ 524288) (h0 : 0 ≤ lid)
    (hp : 0 < frames) (hf : lid.toNat + frames ≤ p.size) :
    toUInt64 (p.start + toInt32 (lid * pageSize)) = p.frameAddr lid.toNat := by
  have hr := hs.range
  rw [last] at hr
  rw [toInt32_of_range (by simp only [pageSize]; omega) (by simp only [pageSize]; omega)]
  have hc : (p.start : ℤ) + lid * (pageSize : ℤ) = ((p.frameAddr lid.toNat : ℕ) : ℤ) := by
    simp only [FramePiece.frameAddr, pageSize]
    omega
  rw [hc, toUInt64_natCast]
  simp only [FramePiece.frameAddr, pageSize] at *
  omega

theorem step_alloc_cases (h : c.Inv marked) (n : ℤ) :
    c.step (.alloc n) = .error (.kpanic "Failed to AEX::Mem::Phys::alloc()") ∨
    ∃ before p after lid p', c.phys.pieces = before ++ p :: after ∧ 0 < frameCount n ∧
      p.AllocAt p' lid (frameCount n) ∧
      c.step (.alloc n) = .ok
        ⟨⟨before ++ p' :: after, toUInt64 (c.phys.framesAvailable - frameCount n)⟩,
          ⟨p.frameAddr lid.toNat, n⟩ :: c.out⟩ := by
  have hc : ∀ p ∈ c.phys.pieces, p.Covered := fun p hp =>
    ⟨(h.sound p hp).bits, by have := h.small p hp; omega⟩
  rcases Phys.allocLoop_cases (frameCount n) c.phys.pieces hc with
    he | ⟨before, p, after, lid, p', hi, ho, ha, hk⟩
  · exact inl (by rw [step, Phys.alloc, he]; rfl)
  have hp : p ∈ c.phys.pieces := by simp [hi]
  refine inr ⟨before, p, after, lid, p', hi, ho, ha, ?_⟩
  rw [step, Phys.alloc, hk, alloc_address (h.sound p hp) (h.small p hp) ha.nonneg ho ha.fits]
  rfl

variable {p' first : FramePiece}

theorem sound_of_allocAt {lid : ℤ} (hs : p.Sound) (h : p.AllocAt p' lid frames) :
    p'.Sound where
  bits := by rw [h.size, h.length]; exact hs.bits
  range := by rw [last, h.start, h.size]; exact hs.range
  size := by rw [h.size]; exact hs.size
  count := by
    have ho := h.bits.clearBits_of_set h.fits h.clear
    have hf := hs.count
    have hi := hs.size
    have hl : clearBits p.bitmap p.size ≤ p.size := Nat.count_le _
    have hc : (p.framesFree : ℤ) - frames = ((clearBits p'.bitmap p.size : ℕ) : ℤ) := by omega
    rw [h.framesFree, hc, toUInt32_natCast (by omega), h.size]

section

variable (h : (before ++ p :: after).Pairwise fun p q => p.last ≤ q.start)
include h

theorem ascending_replace (hs : p'.start = p.start) (hi : p'.size = p.size) :
    (before ++ p' :: after).Pairwise fun p q => p.last ≤ q.start := by
  have hl : p'.last = p.last := by rw [last, last, hs, hi]
  simp only [pairwise_append, pairwise_cons, mem_cons, forall_eq_or_imp] at h ⊢
  rw [hl, hs]
  exact h

theorem apart_of_around (hq : q ∈ before ++ after) (hp : p.InRange a) : ¬ q.InRange a := by
  simp only [pairwise_append, pairwise_cons, mem_cons, forall_eq_or_imp] at h
  intro hqa
  have h1 := hp.1; have h2 := hp.2; have h3 := hqa.1; have h4 := hqa.2
  rcases mem_append.mp hq with hb | ha
  · have := (h.2.2 q hb).1; omega
  · have := h.2.1.1 q ha; omega

end

theorem Inv.replace (h : c.Inv marked) {out : List Region}
    (hpi : c.phys.pieces = before ++ p :: after) (hso : p'.Sound) (ht : p'.start = p.start)
    (hs : p'.size = p.size)
    (hold : ∀ r ∈ out, r ∈ c.out ∨ 0 < r.frames ∧ (∃ lid, r.addr = p.frameAddr lid ∧
      lid + r.frames ≤ p.size) ∧ ∀ i < p.size, r.Contains (p.frameAddr i) →
      ¬ marked (p.frameAddr i))
    (hd : out.Pairwise Region.Disjoint)
    (hb : ∀ i < p.size, bitAt p'.bitmap i = true ↔ marked (p.frameAddr i) ∨ ∃ r ∈ out,
      r.Contains (p.frameAddr i))
    (he : ∀ q ∈ before ++ after, ∀ i < q.size, (∃ r ∈ out, r.Contains (q.frameAddr i)) ↔
      ∃ r ∈ c.out, r.Contains (q.frameAddr i)) :
    Inv marked ⟨⟨before ++ p' :: after, available⟩, out⟩ := by
  have hp : p ∈ c.phys.pieces := by simp [hpi]
  have has := h.ascending
  rw [hpi] at has
  have hfr : ∀ i, p'.frameAddr i = p.frameAddr i := fun i => by
    rw [FramePiece.frameAddr, FramePiece.frameAddr, ht]
  have hm : ∀ q, q ∈ before ++ p' :: after ↔ q = p' ∨ q ∈ before ++ after := fun q =>
    perm_middle.mem_iff.trans mem_cons
  have har : ∀ q ∈ before ++ after, q ∈ c.phys.pieces := fun q hq => by
    rw [hpi, perm_middle.mem_iff]
    exact mem_cons_of_mem _ hq
  refine ⟨?_, ?_, ascending_replace has ht hs, ?_, hd, ?_, ?_⟩
  · intro q hq
    rcases (hm q).mp hq with rfl | hq'
    · exact hso
    · exact h.sound q (har q hq')
  · intro q hq
    rcases (hm q).mp hq with rfl | hq'
    · rw [hs]; exact h.small p hp
    · exact h.small q (har q hq')
  · intro r hr
    rcases hold r hr with hr' | ⟨ho, ⟨lid, ha, hf⟩, _⟩
    · obtain ⟨ho, q, hq, lid, ha, hf⟩ := h.aligned r hr'
      rw [hpi, perm_middle.mem_iff, mem_cons] at hq
      rcases hq with rfl | hq
      · exact ⟨ho, p', (hm p').mpr (inl rfl), lid, by rw [hfr]; exact ha,
          by rw [hs]; exact hf⟩
      · exact ⟨ho, q, (hm q).mpr (inr hq), lid, ha, hf⟩
    · exact ⟨ho, p', (hm p').mpr (inl rfl), lid, by rw [hfr]; exact ha,
        by rw [hs]; exact hf⟩
  · intro r hr q hq i hi hc
    rcases hold r hr with hr' | ⟨_, ⟨lid, ha, hf⟩, hl⟩
    · rcases (hm q).mp hq with rfl | hq'
      · rw [hfr] at hc ⊢
        exact h.unmarked r hr' p hp i (by rw [← hs]; exact hi) hc
      · exact h.unmarked r hr' q (har q hq') i hi hc
    rcases (hm q).mp hq with rfl | hq'
    · rw [hfr] at hc ⊢
      exact hl i (by rw [← hs]; exact hi) hc
    · exact absurd (inRange_frameAddr hi)
        (apart_of_around has hq' (inRange_of_contains ha hf hc))
  · intro q hq i hi
    rcases (hm q).mp hq with rfl | hq'
    · rw [hfr]
      exact hb i (by rw [← hs]; exact hi)
    · rw [h.bits q (har q hq') i hi]
      exact or_congr Iff.rfl (he q hq' i hi).symm

variable {c' : Config}

section

variable (h : c.Inv marked)
include h

theorem inv_alloc {n : ℤ} (hst : c.step (.alloc n) = .ok c') : c'.Inv marked := by
  rcases step_alloc_cases h n with he | ⟨before, p, after, lid, p', hpi, ho, ht, hk⟩
  · rw [he] at hst; cases hst
  rw [hk] at hst
  cases hst
  have hp : p ∈ c.phys.pieces := by simp [hpi]
  have has := h.ascending
  rw [hpi] at has
  set r : Region := ⟨p.frameAddr lid.toNat, n⟩
  have hf : lid.toNat + r.frames ≤ p.size := ht.fits
  have hr : ∀ i, r.Contains (p.frameAddr i) ↔ lid.toNat ≤ i ∧ i < lid.toNat + r.frames :=
    fun i => contains_frameAddr rfl
  -- the run was clear, so it is neither marked nor part of an outstanding region
  have hl : ∀ i, lid.toNat ≤ i → i < lid.toNat + r.frames →
      ¬ marked (p.frameAddr i) ∧ ∀ s ∈ c.out, ¬ s.Contains (p.frameAddr i) := by
    intro i h1 h2
    have hb : ¬ bitAt p.bitmap i = true := by rw [ht.clear i h1 h2]; decide
    rw [h.bits p hp i (by omega)] at hb
    push Not at hb
    exact hb
  refine h.replace hpi (sound_of_allocAt (h.sound p hp) ht) ht.start ht.size ?_ ?_ ?_ ?_
  · intro s hs
    rcases mem_cons.mp hs with rfl | hs'
    · refine inr ⟨ho, ⟨lid.toNat, rfl, hf⟩, fun i _ hc => ?_⟩
      exact (hl i ((hr i).mp hc).1 ((hr i).mp hc).2).1
    · exact inl hs'
  · refine pairwise_cons.mpr ⟨fun s hs => ?_, h.disjoint⟩
    obtain ⟨hsp, q, hq, lid', ha, hqf⟩ := h.aligned s hs
    exact disjoint_of_clear h.ascending hp hq rfl hf ha hqf ho hsp
      fun i h1 h2 => (hl i h1 h2).2 s hs
  · intro i hi
    rw [ht.bits i, exists_mem_cons_iff, hr i]
    by_cases hn : lid.toNat ≤ i ∧ i < lid.toNat + frameCount n
    · rw [if_pos hn]
      exact iff_of_true rfl (inr (inl hn))
    · rw [if_neg hn, h.bits p hp i hi]
      exact or_congr Iff.rfl (or_iff_right hn).symm
  · intro q hq i hi
    rw [exists_mem_cons_iff, or_iff_right]
    intro hc
    have ha : r.addr = p.frameAddr lid.toNat := rfl
    exact apart_of_around has hq (inRange_of_contains ha hf hc) (inRange_frameAddr hi)

theorem step_free_first (hr : r ∈ c.out) (hi : c.phys.pieces = first :: rest)
    (hn : first.InRange r.addr) :
    ∃ lid bitmap, r.addr = first.frameAddr lid ∧ lid + r.frames ≤ first.size ∧
      bitmap.length = first.bitmap.length ∧ PutRun first.bitmap bitmap lid r.frames false ∧
      (∀ j, lid ≤ j → j < lid + r.frames → bitAt first.bitmap j = true) ∧
      c.step (.free r) = .ok
        ⟨⟨{ first with bitmap, framesFree := toUInt32 (first.framesFree + r.frames) } :: rest,
          toUInt64 (c.phys.framesAvailable + r.frames)⟩, c.out.erase r⟩ := by
  have hfi : first ∈ c.phys.pieces := by rw [hi]; exact mem_cons_self
  obtain ⟨ho, q, hq, lid, ha, hf⟩ := h.aligned r hr
  -- the piece of the region is the first one, since the ranges do not overlap
  have hqi : q.InRange r.addr := by rw [ha]; exact inRange_frameAddr (by omega)
  obtain rfl := piece_unique h.ascending hq hfi hqi hn
  have hs : ∀ j, lid ≤ j → j < lid + r.frames → bitAt q.bitmap j = true := by
    intro j h1 h2
    exact (h.bits q hq j (by omega)).mpr (inr ⟨r, hr, (contains_frameAddr ha).mpr ⟨h1, h2⟩⟩)
  have hm := h.small q hq
  have hc := (h.sound q hq).bits
  have hli : toInt32 (((r.addr - q.start) / pageSize : ℕ) : ℤ) = (lid : ℤ) := by
    have hd : (r.addr - q.start) / pageSize = lid := by
      rw [ha, FramePiece.frameAddr, Nat.add_sub_cancel_left]
      exact Nat.mul_div_cancel_left _ (by decide)
    rw [hd, toInt32_of_range (by omega) (by omega)]
  have hro : (lid : ℤ).toNat + r.frames ≤ 32 * q.bitmap.length := by
    rw [Int.toNat_natCast]
    omega
  obtain ⟨bitmap, hu, hl, hp⟩ :=
    q.free_spec (Int.natCast_nonneg lid) (by omega) hro (by rwa [Int.toNat_natCast])
  rw [Int.toNat_natCast] at hp
  refine ⟨lid, bitmap, ha, hf, hl, hp, hs, ?_⟩
  have hg : ¬ r.addr < q.start := Nat.not_lt.mpr hn.1
  rw [step, Phys.free]
  simp only [hi, if_neg hg, Phys.freeLoop, gt_iff_lt, hli]
  rw [show frameCount r.amount = r.frames from rfl, hu]
  rfl

theorem Inv.nodup : c.out.Nodup := by
  refine List.Pairwise.imp_of_mem ?_ h.disjoint
  rintro r s hr _ hd rfl
  have hp := (h.aligned r hr).1
  simp only [Region.Disjoint, Region.last, pageSize] at hd
  omega

/-- **The free of a region of the first piece preserves the invariant.** -/
theorem inv_free (hr : r ∈ c.out) (hfi : FreesFirstPiece c (.free r))
    (hst : c.step (.free r) = .ok c') : c'.Inv marked := by
  obtain ⟨p, rest, hpi, hn⟩ := hfi
  obtain ⟨lid, bitmap, ha, hf, hl, ht, hset, hk⟩ := step_free_first h hr hpi hn
  rw [hk] at hst
  cases hst
  have hp : p ∈ c.phys.pieces := by rw [hpi]; exact mem_cons_self
  have has := h.ascending
  rw [hpi] at has
  have ho := h.sound p hp
  have hu : ∀ i, r.Contains (p.frameAddr i) ↔ lid ≤ i ∧ i < lid + r.frames :=
    fun i => contains_frameAddr ha
  have he : ∀ s, s ∈ c.out.erase r ↔ s ≠ r ∧ s ∈ c.out := fun s => h.nodup.mem_erase_iff
  have hp' : c.phys.pieces = [] ++ p :: rest := hpi
  refine h.replace hp' ⟨?_, ho.range, ho.size, ?_⟩ rfl rfl ?_ ?_ ?_ ?_
  · rw [hl]; exact ho.bits
  · have hcou := ht.clearBits_of_clear hf hset
    have hle : clearBits bitmap p.size ≤ p.size := Nat.count_le _
    have hfr := ho.count
    have hsi := ho.size
    have hca : (p.framesFree : ℤ) + r.frames = ((clearBits bitmap p.size : ℕ) : ℤ) := by omega
    exact (congrArg toUInt32 hca).trans (toUInt32_natCast (by omega))
  · exact fun s hs => inl ((he s).mp hs).2
  · exact h.disjoint.sublist erase_sublist
  · intro i hi
    rw [ht i]
    by_cases hi' : lid ≤ i ∧ i < lid + r.frames
    · -- a freed frame: it was not marked, and no other region contains it
      rw [if_pos hi']
      refine iff_of_false (by decide) ?_
      rintro (hm | ⟨s, hs, hc⟩)
      · exact h.unmarked r hr p hp i hi ((hu i).mpr hi') hm
      obtain ⟨hne, hs'⟩ := (he s).mp hs
      have hd := h.disjoint.forall hs' hr hne
      have hrc := (hu i).mpr hi'
      have h1 := hc.1; have h2 := hc.2; have h3 := hrc.1; have h4 := hrc.2
      rcases hd with hlt | hlt <;> omega
    rw [if_neg hi', h.bits p hp i hi]
    refine or_congr Iff.rfl ⟨?_, ?_⟩
    · rintro ⟨s, hs, hc⟩
      refine ⟨s, (he s).mpr ⟨?_, hs⟩, hc⟩
      rintro rfl
      exact hi' ((hu i).mp hc)
    · rintro ⟨s, hs, hc⟩
      exact ⟨s, ((he s).mp hs).2, hc⟩
  · intro q hq i hi
    refine ⟨fun ⟨s, hs, hc⟩ => ⟨s, ((he s).mp hs).2, hc⟩, ?_⟩
    rintro ⟨s, hs, hc⟩
    refine ⟨s, (he s).mpr ⟨?_, hs⟩, hc⟩
    rintro rfl
    exact apart_of_around has hq (inRange_of_contains ha hf hc) (inRange_frameAddr hi)

end

/-! ## Runs -/

theorem inv_init {phys : Phys} (hw : phys.Wf) (hs : ∀ p ∈ phys.pieces, p.size ≤ 524288) :
    Inv phys.Marked ⟨phys, []⟩ where
  sound := hw.sound
  small := hs
  ascending := hw.ascending
  aligned := by simp
  disjoint := List.Pairwise.nil
  unmarked := by simp
  bits := by
    intro p hp i hi
    simp only [not_mem_nil, false_and, exists_false, or_false]
    constructor
    · exact fun hb => ⟨p, hp, i, hi, hb, rfl⟩
    rintro ⟨q, hq, j, hj, hb, ha⟩
    obtain rfl := piece_unique hw.ascending hq hp (inRange_frameAddr hj)
      (by rw [← ha]; exact inRange_frameAddr hi)
    simp only [FramePiece.frameAddr, pageSize] at ha
    rwa [show i = j by omega]

variable {call : Call}

theorem Inv.step (h : c.Inv marked) (legal : c.Legal call) (ok : FreesFirstPiece c call)
    (next : c.step call = .ok c') : c'.Inv marked := by
  cases call with
  | alloc amount => exact inv_alloc h next
  | free r => exact inv_free h legal ok next

theorem Inv.callSafe (h : c.Inv marked) (legal : c.Legal call) (ok : FreesFirstPiece c call) :
    c.CallSafe call := by
  cases call with
  | alloc amount =>
    rcases step_alloc_cases h amount with he | ⟨_, _, _, _, _, _, _, _, ho⟩
    · exact ⟨by simp [he], by simp [he], by simp⟩
    · exact ⟨by simp [ho], by simp [ho], by simp⟩
  | free r =>
    obtain ⟨p, rest, hp, hi⟩ := ok
    obtain ⟨lid, bitmap, _, _, _, _, _, ho⟩ := step_free_first h legal hp hi
    refine ⟨by simp [ho], by simp [ho], ?_⟩
    rintro s c' hc hn
    cases hc
    rw [ho] at hn
    cases hn
    refine ⟨by simp [hp], fun k q q' hq hq' hne => ?_⟩
    rw [hp] at hq
    cases k with
    | zero =>
      obtain rfl : p = q := by simpa using hq
      exact hi
    | succ k =>
      rw [getElem?_cons_succ] at hq hq'
      exact absurd (Option.some.inj (hq'.symm.trans hq)) hne

end Config

/-- **Frame ownership.** From every list of sound, ascending pieces of at most 524288 frames each
(2 GiB), the discipline holds along every run in which the freed regions lie in the first piece. -/
theorem frameOwnership_of_freesFirstPiece (phys : Phys) (hwf : phys.Wf)
    (hsmall : ∀ p ∈ phys.pieces, p.size ≤ 524288) : FrameOwnership FreesFirstPiece phys := by
  intro c hre
  have hinv : c.Inv phys.Marked := hre.invariant (Config.inv_init hwf hsmall)
    fun _ _ _ hinv ok next => hinv.step ok.1 ok.2 next
  exact ⟨hinv.owned, fun call legal ok => hinv.callSafe legal ok⟩

def twoPieces : Phys where
  pieces := [⟨0x100000, 8, 8, [0#32]⟩, ⟨0x108000, 8, 8, [0#32]⟩]
  framesAvailable := 16

theorem twoPieces_wf : twoPieces.Wf where
  sound p hp := by
    simp only [twoPieces, mem_cons, not_mem_nil, or_false] at hp
    rcases hp with rfl | rfl <;> exact ⟨by decide, by decide, by decide, by decide⟩
  ascending := by
    simp [twoPieces, last, pageSize]

theorem frameOwnership_twoPieces :
    twoPieces.Wf ∧ (∀ p ∈ twoPieces.pieces, p.size ≤ 524288) ∧
      FrameOwnership FreesFirstPiece twoPieces :=
  ⟨twoPieces_wf, by decide, frameOwnership_of_freesFirstPiece _ twoPieces_wf (by decide)⟩

theorem not_frameOwnership_twoPieces :
    twoPieces.Wf ∧ ¬ FrameOwnership (fun _ _ => True) twoPieces := by
  refine ⟨twoPieces_wf, fun h => ?_⟩
  let full : FramePiece := ⟨0x100000, 8, 0, [0xFF#32]⟩
  let c1 : Config := ⟨⟨[full, ⟨0x108000, 8, 8, [0#32]⟩], 8⟩, [⟨0x100000, 32768⟩]⟩
  let c2 : Config :=
    ⟨⟨[full, ⟨0x108000, 8, 7, [1#32]⟩], 7⟩, [⟨0x108000, 4096⟩, ⟨0x100000, 32768⟩]⟩
  have hfi : Config.step ⟨twoPieces, []⟩ (.alloc 32768) = .ok c1 := rfl
  have hre : Reach Config.step (fun c call => c.Legal call ∧ True) ⟨twoPieces, []⟩ c2 :=
    .step (.alloc 4096) (.step (.alloc 32768) .refl ⟨trivial, trivial⟩ hfi) ⟨trivial, trivial⟩ rfl
  have hsa := (h c2 hre).2 (.free ⟨0x108000, 4096⟩) mem_cons_self trivial
  have hfr : c2.phys.free 0x108000 4096 = .error (.assertion "m_bitmap[ii] & tmp") := by decide
  exact hsa.no_assert "m_bitmap[ii] & tmp" (by rw [Config.step, hfr]; rfl)

end AexKernel.Mem
