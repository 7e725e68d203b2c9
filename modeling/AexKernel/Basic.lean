import AexKernel.Library.MachineInt
import AexKernel.Library.Outcome

/-! # Common ground of the kernel model

The ways in which kernel code can stop (`Fault`) and the page-size arithmetic of
`aex/mem/phys.hpp` that the memory modules share. -/

namespace AexKernel

open Library

/-- How a modelled function fails to return. -/
inductive Fault where
  /-- `AEX_ASSERT(condition)` found `condition` false and called `kpanic`. -/
  | assertion (condition : String)
  /-- An explicit `kpanic(message)`. -/
  | kpanic (message : String)
  /-- A read or write outside the memory of the object it is meant for (undefined behaviour). -/
  | outOfBounds
  /-- A loop that goes on for ever. -/
  | divergence
  deriving DecidableEq, Repr

/-- `Sys::CPU::PAGE_SIZE`. -/
def pageSize : ℕ := 4096

/-- `ceiltopg<int32_t>`: the number of frames that hold `a` bytes. -/
def ceiltopg32 (a : ℤ) : ℤ := Int.tdiv (toInt32 (a + (pageSize - 1))) pageSize

/-- `uint32_t frames = ceiltopg(amount)`, as `Phys::alloc` and `Phys::free` compute it. -/
def frameCount (amount : ℤ) : ℕ := toUInt32 (ceiltopg32 amount)

end AexKernel
