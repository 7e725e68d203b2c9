import AexKernel.Mem.Slab

/-! # The kernel heap (`mem/heap.cpp`)

`Heap::malloc` and `Heap::free` over the chain of slabs that starts at `rootSlab`. -/

namespace AexKernel.Mem

open Library

/-- Why a heap call has no result. -/
inductive HeapStop where
  /-- `kpanic(format, …)`. -/
  | kpanic (format : String)
  | noReturn
  /-- `Pagemap::alloc` answered with memory that is in use. -/
  | notFresh
  deriving DecidableEq, Repr

/-- The memory behind a slab: its address, its pieces, and the bytes that `Pagemap::alloc` returned
for it. -/
structure SlabRecord where
  base : ℕ
  pieces : ℕ
  total : ℕ
  deriving DecidableEq, Repr

/-- The heap: all of memory, `rootSlab` and the two counters. -/
structure Heap where
  mem : Memory
  rootSlab : ℕ
  heapAllocated : ℕ
  heapFree : ℕ
  slabs : List SlabRecord

/-- An answer of `Pagemap::alloc`. -/
structure VMem where
  addr : ℕ
  contents : Memory

/-- Memory that may be handed out. -/
def Heap.Fresh (h : Heap) (addr size : ℕ) : Prop :=
  0 < addr ∧ addr + size ≤ 18446744073709551616 ∧
    ∀ s ∈ h.slabs, s.base + s.total ≤ addr ∨ addr + size ≤ s.base
deriving Decidable

namespace Slab

/-- The offset of the data area of a slab of `pieces` pieces. -/
def dataOffset (pieces : ℕ) : ℕ :=
  ceilToAllocSize (sizeofSlab + ceilToAllocSize (pieces / 8))

/-- The stores of `Slab::createFromVMem` to the memory of the new slab. -/
def initSlab (mem : Memory) (slab pieces : ℕ) : Memory :=
  let mem := mem.write slab 8 pieces
  let mem := mem.write (slab + 8) 8 pieces
  let mem := mem.write (slab + 40) 8 (slab + dataOffset pieces)
  let mem := mem.write (slab + 16) 8 0
  mem.fill (slab + sizeofSlab) pieces 0#8

/-- `Slab::createFromVMem(size)`. -/
def createFromVMem (h : Heap) (size : ℕ) (answer : VMem) : Except HeapStop (ℕ × Heap) :=
  let pieces := intFloor (size / allocSize) 32
  let size := size + dataOffset pieces
  let slab := answer.addr
  if h.Fresh slab size then
    .ok (slab, { h with
      mem := initSlab (h.mem.overlay slab size answer.contents) slab pieces
      heapAllocated := (h.heapAllocated + pieces * allocSize) % 18446744073709551616
      heapFree := (h.heapFree + pieces * allocSize) % 18446744073709551616
      slabs := h.slabs ++ [⟨slab, pieces, size⟩] })
  else .error .notFresh

/-- `header->sanity` of the block at `block`. -/
def sanity (mem : Memory) (block : ℕ) : ℕ := mem.read block 8

/-- `header->len` of the block at `block`. -/
def len (mem : Memory) (block : ℕ) : ℕ := mem.read (block + 8) 4

/-- `slab->alloc(size)`: the address (0 for `nullptr`) and the heap after it. -/
def alloc (fuel : ℕ) (h : Heap) (slab size : ℕ) : Except HeapStop (ℕ × Heap) :=
  if size = 0 then .ok (0, h)
  else
    let pieces := ceilToPiece (size + allocSize)
    match findFree h.mem slab fuel (pieces % 4294967296) with
    | none => .error .noReturn
    | some start =>
      if start = -1 then .ok (0, h)
      else
        let mem := mark h.mem slab (start.toNat % 4294967296) (pieces % 4294967296)
        let addr := data mem slab + start.toNat * allocSize
        let mem := mem.fill addr (pieces * allocSize) 0#8
        let mem := mem.write (addr + 8) 4 pieces
        let mem := mem.write addr 8 ((addr + allocSize) ^^^ sanityXor)
        .ok (addr + allocSize, { h with
          mem := mem
          heapFree := (h.heapFree + 18446744073709551616 - pieces * allocSize) %
            18446744073709551616 })

/-- `slab->free(ptr)`. -/
def free (h : Heap) (slab ptr : ℕ) : Except HeapStop Heap :=
  let block := ptr - allocSize
  if sanity h.mem block ≠ ptr ^^^ sanityXor then
    .error (.kpanic ("heap: free(0x%p) sanity check failed (sanity was 0x%lx (0x%lx), should " ++
      "have been %p)"))
  else
    let mem := unmark h.mem slab ((block - data h.mem slab) % 4294967296 / allocSize)
      (len h.mem block)
    .ok { h with
      mem := mem.fill block (len mem block * allocSize % 4294967296) 0x5A#8
      heapFree := (h.heapFree + len mem block * allocSize) % 18446744073709551616 }

/-- `slab->owns(ptr)`, with an inclusive upper bound. -/
def owns (mem : Memory) (slab ptr : ℕ) : Bool :=
  decide (data mem slab ≤ ptr) && decide (ptr ≤ data mem slab + pieces mem slab * allocSize)

end Slab

namespace Heap

/-- The `do … while` loop of `malloc`, from `slab` on. -/
def mallocLoop : ℕ → List VMem → Heap → ℕ → ℕ → Except HeapStop (ℕ × Heap)
  | 0, _, _, _, _ => .error .noReturn
  | fuel + 1, answers, h, slab, size => do
    let (addr, h) ← Slab.alloc fuel h slab size
    if addr ≠ 0 then return (addr, h)
    else if Slab.next h.mem slab = 0 then
      match answers with
      | [] => .error .noReturn
      | answer :: answers =>
        let (new, h) ← Slab.createFromVMem h (max (size * 2) 0x100000) answer
        let h := { h with mem := h.mem.write (slab + 16) 8 new }
        if Slab.next h.mem slab ≠ 0 then
          mallocLoop fuel answers h (Slab.next h.mem slab) size
        else .error (.kpanic "heap: malloc(%li) failed [t%li, f%li]")
    else mallocLoop fuel answers h (Slab.next h.mem slab) size

/-- `Heap::malloc(size)`. -/
def malloc (fuel : ℕ) (answers : List VMem) (h : Heap) (size : ℕ) :
    Except HeapStop (ℕ × Heap) :=
  if size = 0 then .ok (0, h)
  else if size > 67108864 then .ok (0, h)
  else mallocLoop fuel answers h h.rootSlab size

/-- The `do … while` loop of `free`, from `slab` on. -/
def freeLoop : ℕ → Heap → ℕ → ℕ → Except HeapStop Heap
  | 0, _, _, _ => .error .noReturn
  | fuel + 1, h, slab, ptr =>
    if Slab.owns h.mem slab ptr then Slab.free h slab ptr
    else if Slab.next h.mem slab ≠ 0 then freeLoop fuel h (Slab.next h.mem slab) ptr
    else .error (.kpanic "heap: free(0x%p) failed")

/-- `Heap::free(ptr)`. -/
def free (fuel : ℕ) (h : Heap) (ptr : ℕ) : Except HeapStop Heap :=
  if ptr = 0 then .ok h else freeLoop fuel h h.rootSlab ptr

/-- The heap with its first slab, as `Heap::init` creates it, in memory `mem`. -/
def create (mem : Memory) (answer : VMem) : Except HeapStop Heap := do
  let (slab, h) ← Slab.createFromVMem ⟨mem, 0, 0, 0, []⟩ 0x100000 answer
  return { h with rootSlab := slab }

end Heap

end AexKernel.Mem
