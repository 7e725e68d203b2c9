import AexKernel.Mem.PageMap

/-! # Addresses in abstract pagemaps

A caller of `Pagemap` sees pages and frames, not tables. -/

namespace AexKernel.Mem.PageMap

def phys (m : PageMap) (v : BitVec 64) : BitVec 64 :=
  (m (pageOf v) &&& memPageMask) + (v &&& 0xFFF#64)

/-- How the processor translates an address. -/
def translate (m : PageMap) (v : BitVec 64) : Option (BitVec 64) :=
  if m (pageOf v) &&& pagePresent = 0 then none else some (m.phys v)

/-- `Pagemap::paddrof`. -/
def paddrof (m : PageMap) (v : BitVec 64) : BitVec 64 := ((m.call (.paddrof v)).1).getD 0

/-- `Pagemap::assign`. -/
def assign (m : PageMap) (virt phys : BitVec 64) (flags : BitVec 16) : PageMap :=
  (m.call (.assign virt phys flags)).2

end AexKernel.Mem.PageMap

namespace AexKernel.Mem

/-! ## Addresses as numbers -/

theorem toNat_and_fff (v : BitVec 64) : (v &&& 0xFFF#64).toNat = v.toNat % 4096 := by
  rw [BitVec.toNat_and]
  exact Nat.and_two_pow_sub_one_eq_mod v.toNat 12

theorem toNat_frameOf (e : Entry) : (frameOf e).toNat = e.toNat / 4096 := by
  rw [frameOf, BitVec.extractLsb'_toNat, Nat.shiftRight_eq_div_pow]
  exact Nat.mod_eq_of_lt (by omega)

theorem toNat_frameAddr (f : Frame) : (frameAddr f).toNat = 4096 * f.toNat := by
  rw [frameAddr, BitVec.toNat_shiftLeft, BitVec.toNat_setWidth, Nat.shiftLeft_eq,
    Nat.mod_eq_of_lt (a := f.toNat) (by omega)]
  omega

theorem toNat_pageOf (v : BitVec 64) : (pageOf v).toNat = v.toNat / 4096 % 2 ^ 36 := by
  rw [pageOf, BitVec.extractLsb'_toNat, Nat.shiftRight_eq_div_pow]

namespace PageMap

variable {m : PageMap} {v : BitVec 64}

theorem toNat_phys (m : PageMap) (v : BitVec 64) :
    (m.phys v).toNat = 4096 * (frameOf (m (pageOf v))).toNat + v.toNat % 4096 := by
  rw [phys, and_memPageMask, BitVec.toNat_add, toNat_frameAddr, toNat_and_fff]
  omega

theorem frameOf_phys (m : PageMap) (v : BitVec 64) : frameOf (m.phys v) = frameOf (m (pageOf v)) := by
  apply BitVec.eq_of_toNat_eq
  rw [toNat_frameOf, toNat_phys]
  omega

theorem phys_eq_iff {u : BitVec 64} : m.phys u = m.phys v ↔
    frameOf (m (pageOf u)) = frameOf (m (pageOf v)) ∧ u.toNat % 4096 = v.toNat % 4096 := by
  rw [← BitVec.toNat_inj, ← BitVec.toNat_inj (x := frameOf _), toNat_phys, toNat_phys]
  omega

section

variable {k : ℕ} (hk : v.toNat % 4096 + k < 4096)
include hk

theorem pageOf_add : pageOf (v + BitVec.ofNat 64 k) = pageOf v := by
  apply BitVec.eq_of_toNat_eq
  rw [toNat_pageOf, toNat_pageOf, BitVec.toNat_add, BitVec.toNat_ofNat]
  omega

theorem phys_add : m.phys (v + BitVec.ofNat 64 k) = m.phys v + BitVec.ofNat 64 k := by
  apply BitVec.eq_of_toNat_eq
  rw [toNat_phys, pageOf_add hk, BitVec.toNat_add, BitVec.toNat_add, toNat_phys, BitVec.toNat_ofNat]
  omega

end

theorem phys_ne_zero (hr : frameOf (m (pageOf v)) ≠ 0) : m.phys v ≠ 0 := by
  intro hz
  have hf := frameOf_phys m v
  rw [hz] at hf
  exact hr hf.symm

theorem paddrof_eq (m : PageMap) (v : BitVec 64) :
    m.paddrof v = if frameOf (m (pageOf v)) = 0 then 0 else m.phys v := by
  have hz : m (pageOf v) &&& memPageMask = 0 ↔ frameOf (m (pageOf v)) = 0 := by
    rw [and_memPageMask]
    constructor
    · intro h
      rw [← frameOf_frameAddr (frameOf (m (pageOf v))), h]
      rfl
    · intro h
      rw [h]
      rfl
  show (if m (pageOf v) &&& memPageMask = 0 then 0 else m.phys v) = _
  simp only [hz]

end PageMap

end AexKernel.Mem
