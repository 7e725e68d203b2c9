import AexKernel.Mem.Slab

/-! # DMA descriptors of a SATA command (`mod/init/sata`) -/

namespace AexKernel.Dev.Sata

open Mem

/-- `phys_region_table_entry`. -/
structure Entry where
  dataAddress : BitVec 64
  bytes : BitVec 22

/-- `llen`, the bytes up to the end of the page. -/
def pieceLen (dsti : BitVec 64) (len : ℕ) : ℕ :=
  min (BitVec.ofNat 64 (intFloor (dsti + 4096).toNat 4096) - dsti).toNat len

theorem pieceLen_eq (dsti : BitVec 64) (len : ℕ) :
    pieceLen dsti len = min (4096 - dsti.toNat % 4096) len := by
  rw [pieceLen, intFloor]
  bv_omega

variable (paddrof : BitVec 64 → BitVec 64)

/-- The entry for `llen` bytes from `dsti` on. -/
def entry (piece : BitVec 64 × ℕ) : Entry := ⟨paddrof piece.1, .ofNat 22 (piece.2 - 1)⟩

/-- The entries that `fillPRDTs` writes. -/
def fillPRDTs (dsti : BitVec 64) (len : ℕ) : List Entry :=
  if len = 0 then []
  else
    let llen := pieceLen dsti len
    entry paddrof (dsti, llen) :: fillPRDTs (dsti + .ofNat 64 llen) (len - llen)
termination_by len
decreasing_by
  rw [pieceLen_eq]
  omega

/-- Consecutive pieces, each in a page, that make up the `len` bytes from `dst` on. -/
def Partition : BitVec 64 → ℕ → List (BitVec 64 × ℕ) → Prop
  | _, len, [] => len = 0
  | dst, len, (start, n) :: pieces =>
    start = dst ∧ 0 < n ∧ n ≤ len ∧ start.toNat % 4096 + n ≤ 4096 ∧
      Partition (dst + .ofNat 64 n) (len - n) pieces

def prdtCount : ℕ := (8192 - 128) / 16

def maxPageBurst : ℕ := prdtCount - 2

theorem length_fillPRDTs (dst : BitVec 64) (len : ℕ) :
    (fillPRDTs paddrof dst len).length ≤ (dst.toNat % 4096 + len + 4095) / 4096 := by
  fun_induction fillPRDTs paddrof dst len with
  | case1 => simp
  | case2 dst len h llen ih =>
    have hl : llen = min (4096 - dst.toNat % 4096) len := pieceLen_eq dst len
    rw [List.length_cons]
    by_cases he : llen = len
    · rw [he, Nat.sub_self, fillPRDTs, if_pos rfl, List.length_nil]
      omega
    · rw [BitVec.toNat_add, BitVec.toNat_ofNat] at ih
      omega

theorem fillPRDTs_covers (dst : BitVec 64) (len : ℕ) :
    (∃ pieces, Partition dst len pieces ∧ fillPRDTs paddrof dst len = pieces.map (entry paddrof) ∧
      ∀ piece ∈ pieces, (entry paddrof piece).bytes.toNat = piece.2 - 1) ∧
    ∀ sectors ≤ maxPageBurst, (fillPRDTs paddrof dst (sectors * 2048)).length ≤ prdtCount := by
  constructor
  · fun_induction fillPRDTs paddrof dst len with
    | case1 => exact ⟨[], rfl, rfl, by simp⟩
    | case2 dst len h llen ih =>
      obtain ⟨pieces, hpart, heq, hbytes⟩ := ih
      have hl : llen = min (4096 - dst.toNat % 4096) len := pieceLen_eq dst len
      refine ⟨(dst, llen) :: pieces, ⟨rfl, by omega, by omega, by omega, hpart⟩, by rw [heq]; rfl, ?_⟩
      refine List.forall_mem_cons.2 ⟨?_, hbytes⟩
      rw [entry, BitVec.toNat_ofNat]
      omega
  · intro sectors hle
    have := length_fillPRDTs paddrof dst (sectors * 2048)
    unfold maxPageBurst prdtCount at *
    omega

end AexKernel.Dev.Sata
