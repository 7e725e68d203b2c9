import AexKernel.Mem.FramePiece

/-! # The physical frame allocator (`mem/phys.cpp`)

`Phys::alloc` walks the pieces from `first_piece` on and takes the first run of free frames that is
long enough. -/

namespace AexKernel.Mem

open Library

/-- The state of `AEX::Mem::Phys`. -/
structure Phys where
  pieces : List FramePiece
  framesAvailable : ℕ
  deriving DecidableEq, Repr

namespace Phys

/-- The `do … while` loop of `Phys::alloc`. -/
def allocLoop (frames : ℕ) : List FramePiece → Except Fault (ℕ × List FramePiece)
  | [] => .error (.kpanic "Failed to AEX::Mem::Phys::alloc()")
  | piece :: rest =>
    if piece.framesFree < frames then do
      let (addr, rest) ← allocLoop frames rest
      return (addr, piece :: rest)
    else do
      let start ← piece.find frames
      if start = -1 then
        let (addr, rest) ← allocLoop frames rest
        return (addr, piece :: rest)
      else
        let piece' ← piece.alloc start frames
        return (toUInt64 (piece.start + toInt32 (start * pageSize)), piece' :: rest)

/-- `Phys::alloc(amount)`: the address of the region and the new state. -/
def alloc (phys : Phys) (amount : ℤ) : Except Fault (ℕ × Phys) := do
  let (addr, pieces) ← allocLoop (frameCount amount) phys.pieces
  return (addr, ⟨pieces, toUInt64 (phys.framesAvailable - frameCount amount)⟩)

/-- The `do … while` loop of `Phys::free`. -/
def freeLoop (addr frames : ℕ) : List FramePiece → Except Fault (List FramePiece)
  | [] => .error (.kpanic "Failed to AEX::Mem::Phys::free()")
  | piece :: rest =>
    if piece.start > addr then do
      let rest ← freeLoop addr frames rest
      return piece :: rest
    else do
      let piece ← piece.free (toInt32 ((addr - piece.start) / pageSize : ℕ)) frames
      return piece :: rest

/-- `Phys::free(addr, amount)`. Addresses below the first piece are ignored. -/
def free (phys : Phys) (addr : ℕ) (amount : ℤ) : Except Fault Phys :=
  match phys.pieces with
  | [] => .error .outOfBounds
  | first :: _ =>
    if addr < first.start then .ok phys
    else do
      let pieces ← freeLoop addr (frameCount amount) phys.pieces
      return ⟨pieces, toUInt64 (phys.framesAvailable + frameCount amount)⟩

end Phys

/-- The bitmap of a piece has a bit for each of its frames, and frame indices fit an `int32_t`. -/
structure FramePiece.Covered (piece : FramePiece) : Prop where
  bits : piece.size ≤ 32 * piece.bitmap.length
  small : piece.size ≤ 2147483648

/-- `piece'` is what `piece->alloc(lid, frames)` leaves when the run from `lid` on was free. -/
structure FramePiece.AllocAt (piece piece' : FramePiece) (lid : ℤ) (frames : ℕ) : Prop where
  nonneg : 0 ≤ lid
  fits : lid.toNat + frames ≤ piece.size
  clear : ∀ j, lid.toNat ≤ j → j < lid.toNat + frames → bitAt piece.bitmap j = false
  start : piece'.start = piece.start
  size : piece'.size = piece.size
  length : piece'.bitmap.length = piece.bitmap.length
  framesFree : piece'.framesFree = toUInt32 (piece.framesFree - frames)
  bits : PutRun piece.bitmap piece'.bitmap lid.toNat frames true

namespace Phys

theorem allocLoop_cases (fs : ℕ) (pieces : List FramePiece) (hc : ∀ p ∈ pieces, p.Covered) :
    allocLoop fs pieces = .error (.kpanic "Failed to AEX::Mem::Phys::alloc()") ∨
    ∃ before piece after lid piece', pieces = before ++ piece :: after ∧ 0 < fs ∧
      piece.AllocAt piece' lid fs ∧
      allocLoop fs pieces = .ok
        (toUInt64 (piece.start + toInt32 (lid * pageSize)), before ++ piece' :: after) := by
  induction pieces with
  | nil => exact Or.inl rfl
  | cons piece rest ih =>
    -- the outcome of a piece that has no room is that of the rest of the list
    have hs : (∀ r, allocLoop fs rest = r → allocLoop fs (piece :: rest) = r.map
        fun x => (x.1, piece :: x.2)) →
        allocLoop fs (piece :: rest) = .error (.kpanic "Failed to AEX::Mem::Phys::alloc()") ∨
        ∃ before p after lid p', piece :: rest = before ++ p :: after ∧ 0 < fs ∧
          p.AllocAt p' lid fs ∧
          allocLoop fs (piece :: rest) = .ok
            (toUInt64 (p.start + toInt32 (lid * pageSize)), before ++ p' :: after) := by
      intro hr
      rcases ih fun p hp => hc p (List.mem_cons_of_mem _ hp) with
        her | ⟨before, p, after, lid, p', rfl, ho, ha, hk⟩
      · exact Or.inl (by rw [hr _ her]; rfl)
      exact Or.inr ⟨piece :: before, p, after, lid, p', rfl, ho, ha, by rw [hr _ hk]; rfl⟩
    by_cases he : piece.framesFree < fs
    · apply hs
      rintro r rfl
      rw [allocLoop, if_pos he]
      cases allocLoop fs rest <;> rfl
    obtain ⟨hb, hm⟩ := hc piece List.mem_cons_self
    obtain ⟨lid, hf, hli⟩ := piece.find_spec fs hb hm
    by_cases hn : lid = -1
    · apply hs
      rintro r rfl
      rw [allocLoop, if_neg he, hf]
      simp only [hn, ok_bind, if_true]
      cases allocLoop fs rest <;> rfl
    obtain ⟨ho, h0, hi, hcl⟩ := hli.resolve_left hn
    obtain ⟨bitmap, ha, hl, hu⟩ :=
      piece.alloc_spec h0 (by omega) (by omega) hcl
    refine Or.inr ⟨[], piece, rest, lid,
      { piece with bitmap, framesFree := toUInt32 (piece.framesFree - fs) }, rfl, ho,
      ⟨h0, hi, hcl, rfl, rfl, hl, rfl, hu⟩, ?_⟩
    rw [allocLoop, if_neg he, hf]
    simp only [ok_bind, if_neg hn, ha]
    rfl

end Phys

end AexKernel.Mem
