import AexKernel.Basic
import AexKernel.Library.RadixTable

/-! # Page tables (`arch/x86_64/mem/paging.cpp`)

The file embeds the walkers of the four-level page tables, `assign` and `unassign`, the search for
free pages, and the methods of `Pagemap` over them. -/

namespace AexKernel.Mem

open Library

/-- The number of a physical frame. -/
abbrev Frame := BitVec 52

abbrev Entry := BitVec 64

abbrev Index := BitVec 9

/-- `PAGE_PRESENT`. -/
def pagePresent : Entry := 0x01#64
/-- `PAGE_NOPHYS`. -/
def pageNophys : Entry := 0x200#64
/-- `PAGE_USER | PAGE_WRITE | PAGE_PRESENT`, the flags of a table. -/
def tableFlags : Entry := 0x07#64
/-- `MEM_PAGE_MASK`. -/
def memPageMask : Entry := ~~~0xFFF#64
/-- The address that `map` gives to pages that raise page faults. -/
def arbitraryAddr : Entry := 0x00AA000000000000#64

/-- `PAGE_EXEC` in the flags of `alloc`. -/
def pageExec : BitVec 32 := 0x1000#32
/-- `PAGE_FIXED` in the flags of `alloc`. -/
def pageFixed : BitVec 32 := 0x2000#32

def frameOf (e : Entry) : Frame := e.extractLsb' 12 52

def frameAddr (f : Frame) : Entry := f.setWidth 64 <<< 12

def pml4Index (virt : BitVec 64) : Index := virt.extractLsb' 39 9
def pdpIndex (virt : BitVec 64) : Index := virt.extractLsb' 30 9
def pdIndex (virt : BitVec 64) : Index := virt.extractLsb' 21 9
def ptIndex (virt : BitVec 64) : Index := virt.extractLsb' 12 9

def indices : List Index := (List.range 512).map (BitVec.ofNat 9)

/-- `ceiltopg<size_t>`. -/
def ceiltopg64 (bytes : BitVec 64) : ℕ := (bytes + 4095#64).toNat / 4096

/-- Physical memory and the frames that `Phys` has handed out. -/
structure Machine where
  mem : Frame → Index → Entry
  /-- The regions that `Phys::alloc` will propose, by their first frames. -/
  supply : List Frame
  outstanding : List Frame

namespace Machine

/-! ## Physical memory -/

/-- `ptr[index] = e` in a frame. -/
def write (s : Machine) (f : Frame) (i : Index) (e : Entry) : Machine :=
  { s with mem := writeSlot s.mem f i e }

/-- `memset64` or `memcpy` of a whole frame. -/
def fill (s : Machine) (f : Frame) (words : Index → Entry) : Machine :=
  { s with mem := Function.update s.mem f words }

@[simp] theorem mem_write (s : Machine) (f : Frame) (i : Index) (e : Entry) :
    (s.write f i e).mem = writeSlot s.mem f i e := rfl

@[simp] theorem outstanding_write (s : Machine) (f : Frame) (i : Index) (e : Entry) :
    (s.write f i e).outstanding = s.outstanding := rfl

@[simp] theorem mem_fill (s : Machine) (f : Frame) (words : Index → Entry) :
    (s.fill f words).mem = Function.update s.mem f words := rfl

@[simp] theorem outstanding_fill (s : Machine) (f : Frame) (words : Index → Entry) :
    (s.fill f words).outstanding = s.outstanding := rfl

def region (f : Frame) (n : ℕ) : List Frame := (List.range n).map fun k => f + BitVec.ofNat 52 k

/-- `Phys::alloc` of a region of `n` frames. -/
def physAllocRegion (s : Machine) (n : ℕ) : Except Fault (Frame × Machine) :=
  match s.supply with
  | [] => .error (.kpanic "Failed to AEX::Mem::Phys::alloc()")
  | f :: rest =>
    if ∀ g ∈ region f n, g ∉ s.outstanding then
      .ok (f, { s with supply := rest, outstanding := region f n ++ s.outstanding })
    else .error (.kpanic "Failed to AEX::Mem::Phys::alloc()")

/-- `Phys::alloc` of one frame. -/
def physAlloc (s : Machine) : Except Fault (Frame × Machine) :=
  match s.supply with
  | [] => .error (.kpanic "Failed to AEX::Mem::Phys::alloc()")
  | f :: rest =>
    if f ∈ s.outstanding then .error (.kpanic "Failed to AEX::Mem::Phys::alloc()")
    else .ok (f, { s with supply := rest, outstanding := f :: s.outstanding })

/-- `Phys::free` of one frame. -/
def physFree (s : Machine) (f : Frame) : Except Fault Machine :=
  if f ∈ s.outstanding then .ok { s with outstanding := s.outstanding.filter (· ≠ f) }
  else .error (.assertion "m_bitmap[ii] & tmp")

end Machine

/-! ## Walking -/

/-- `find_table(root, pptr, virt_addr, skip_by)`. -/
def findTable (mem : Frame → Index → Entry) (root : Frame) (virt : BitVec 64) :
    Except (BitVec 64) Frame :=
  if mem root (pml4Index virt) = 0 then .error 0x8000000000#64
  else
    let pdp := frameOf (mem root (pml4Index virt))
    if mem pdp (pdpIndex virt) = 0 then .error 0x40000000#64
    else
      let pd := frameOf (mem pdp (pdpIndex virt))
      if mem pd (pdIndex virt) = 0 then .error 0x200000#64
      else .ok (frameOf (mem pd (pdIndex virt)))

/-- `Pagemap::rawof_internal`. -/
def rawofInternal (mem : Frame → Index → Entry) (root : Frame) (addr : BitVec 64) : Entry :=
  match findTable mem root (addr &&& memPageMask) with
  | .error _ => 0
  | .ok table => mem table (ptIndex addr)

/-- `Pagemap::paddrof_internal`. -/
def paddrofInternal (mem : Frame → Index → Entry) (root : Frame) (addr : BitVec 64) : BitVec 64 :=
  match findTable mem root (addr &&& memPageMask) with
  | .error _ => 0
  | .ok table =>
    if mem table (ptIndex addr) &&& memPageMask = 0 then 0
    else (mem table (ptIndex addr) &&& memPageMask) + (addr &&& 0xFFF#64)

/-- `Pagemap`; its lock is held during every call. -/
structure Pagemap where
  pageRoot : Frame
  vstart : BitVec 64
  vend : BitVec 64
  gflags : BitVec 32

namespace Machine

/-- One pass of the loop of `findTableEnsure`. -/
def ensureTable (s : Machine) (table : Frame) (index : Index) : Except Fault (Frame × Machine) :=
  if s.mem table index &&& pagePresent = 0 then do
    let (phys, s) ← s.physAlloc
    let s := s.write table index (frameAddr phys)
    let s := s.write table index (s.mem table index ||| tableFlags)
    let next := frameOf (s.mem table index)
    return (next, s.fill next fun _ => 0)
  else
    let s := s.write table index (s.mem table index ||| tableFlags)
    .ok (frameOf (s.mem table index), s)

/-- `Pagemap::findTableEnsure`. -/
def findTableEnsure (s : Machine) (root : Frame) (virt : BitVec 64) :
    Except Fault (Frame × Machine) := do
  let (pdp, s) ← s.ensureTable root (pml4Index virt)
  let (pd, s) ← s.ensureTable pdp (pdpIndex virt)
  s.ensureTable pd (pdIndex virt)

/-- `Pagemap::assign`. -/
def assign (s : Machine) (root : Frame) (virt phys : BitVec 64) (flags : BitVec 16) :
    Except Fault Machine := do
  let vaddr := virt &&& memPageMask
  let paddr := phys &&& memPageMask
  let (ptable, s) ← s.findTableEnsure root vaddr
  return s.write ptable (ptIndex vaddr) (paddr ||| flags.setWidth 64)

/-- The entry that `assign` writes. -/
abbrev assigned (phys : BitVec 64) (flags : BitVec 16) : Entry :=
  (phys &&& memPageMask) ||| flags.setWidth 64

/-- `Pagemap::unassign`: the address of the frame, or zero. -/
def unassign (s : Machine) (map : Pagemap) (virt : BitVec 64) :
    Except Fault (BitVec 64 × Machine) :=
  if virt < map.vstart then .error (.assertion "virt >= vstart")
  else if map.vend < virt then .error (.assertion "virt <= vend")
  else do
    let vaddr := virt &&& memPageMask
    let (ptable, s) ← s.findTableEnsure map.pageRoot vaddr
    let entry := s.mem ptable (ptIndex vaddr)
    let s := s.write ptable (ptIndex vaddr) 0
    return (if entry &&& pageNophys ≠ 0 then 0 else entry &&& memPageMask, s)

/-! ## Searching -/

/-- The loop of `findContiguous`. An index of 512 stands for a table that has yet to be found. -/
def findContiguousLoop (mem : Frame → Index → Entry) (root : Frame) (vend : BitVec 64)
    (amount : ℕ) : ℕ → BitVec 64 → ℕ → ℕ → BitVec 64 → Frame → Except Fault (BitVec 64)
  | 0, _, _, _, _, _ => .error .divergence
  | fuel + 1, vaddr, index, combo, start, tb =>
    if vaddr < vend then
      match if index < 512 then some (tb, index)
        else (findTable mem root vaddr).toOption.map fun table => (table, 0) with
      | none =>
        if amount ≤ combo + 512 then .ok start
        else findContiguousLoop mem root vend amount fuel (vaddr + 0x200000#64) 512 (combo + 512)
          start tb
      | some (tb, index) =>
        if mem tb (BitVec.ofNat 9 index) ≠ 0 then
          findContiguousLoop mem root vend amount fuel (vaddr + 4096#64) (index + 1) 0
            (vaddr + 4096#64) tb
        else if amount ≤ combo + 1 then .ok start
        else findContiguousLoop mem root vend amount fuel (vaddr + 4096#64) (index + 1) (combo + 1)
          start tb
    else .ok 0

/-- Where `findContiguous` starts to look. -/
def searchStart (map : Pagemap) (executable : Bool) : BitVec 64 :=
  if executable then
    if map.vstart = 0xFFFF800000000000#64 then 0xFFFFFFFF80000000#64
    else if map.vend = 0x00007FFFFFFFFFFF#64 then 0x00007FFF80000000#64
    else map.vstart
  else map.vstart

/-- The table with which `findContiguous` starts, which is created when it is missing. -/
def searchTable (s : Machine) (root : Frame) (vstart : BitVec 64) : Except Fault (Frame × Machine) :=
  match findTable s.mem root vstart with
  | .ok tb => .ok (tb, s)
  | .error _ => s.findTableEnsure root vstart

/-- `Pagemap::findContiguous`. -/
def findContiguous (s : Machine) (map : Pagemap) (amount : ℕ) (executable : Bool) :
    Except Fault (BitVec 64 × Machine) :=
  if amount = 0 then .ok (0, s)
  else do
    let vstart := searchStart map executable
    let (tb, s) ← s.searchTable map.pageRoot vstart
    let start ← findContiguousLoop s.mem map.pageRoot map.vend amount (2 ^ 53) vstart
      (ptIndex vstart).toNat 0 vstart tb
    return (start, s)

/-! ## Mapping -/

/-- The loop of `alloc`. -/
def allocLoop (root : Frame) (flags : BitVec 16) : ℕ → Machine → BitVec 64 → Except Fault Machine
  | 0, s, _ => .ok s
  | n + 1, s, vaddr => do
    let (phys, s) ← s.physAlloc
    let s := s.fill phys fun _ => 0
    let s ← s.assign root vaddr (frameAddr phys) flags
    allocLoop root flags n s (vaddr + 4096#64)

/-- The address at which `alloc` puts its pages. -/
def allocStart (s : Machine) (map : Pagemap) (amount : ℕ) (flags : BitVec 32)
    (source : BitVec 64) : Except Fault (BitVec 64 × Machine) :=
  if flags &&& pageFixed ≠ 0 then .ok (source, s)
  else s.findContiguous map amount (flags &&& pageExec ≠ 0)

/-- The flags of the pages that `alloc` makes. -/
def allocFlags (map : Pagemap) (flags : BitVec 32) : BitVec 16 :=
  ((flags ||| 1#32 ||| map.gflags) &&& 0xFFF#32).setWidth 16

/-- `Pagemap::alloc`. -/
def alloc (s : Machine) (map : Pagemap) (bytes : BitVec 64) (flags : BitVec 32)
    (source : BitVec 64) : Except Fault (BitVec 64 × Machine) :=
  if bytes = 0 then .ok (0, s)
  else do
    let (vaddr, s) ← s.allocStart map (ceiltopg64 bytes) flags source
    if vaddr = 0 then .error (.kpanic "aa")
    else do
      let s ← allocLoop map.pageRoot (allocFlags map flags) (ceiltopg64 bytes) s vaddr
      return (vaddr, s)

/-- The loop of `allocContinuous`. -/
def allocContinuousLoop (root : Frame) (flags : BitVec 16) :
    ℕ → Machine → BitVec 64 → BitVec 64 → Except Fault Machine
  | 0, s, _, _ => .ok s
  | n + 1, s, vaddr, paddr => do
    let s := s.fill (frameOf paddr) fun _ => 0
    let s ← s.assign root vaddr paddr flags
    allocContinuousLoop root flags n s (vaddr + 4096#64) (paddr + 4096#64)

/-- `Pagemap::allocContinuous`. `Phys::alloc` takes the size as an `int32_t`. -/
def allocContinuous (s : Machine) (map : Pagemap) (bytes : BitVec 64) (flags : BitVec 32)
    (source : BitVec 64) : Except Fault (BitVec 64 × Machine) :=
  if bytes = 0 then .ok (0, s)
  else do
    let (vaddr, s) ← s.allocStart map (ceiltopg64 bytes) flags source
    let (phys, s) ← s.physAllocRegion (frameCount (toInt32 bytes.toNat))
    let s ← allocContinuousLoop map.pageRoot (allocFlags map flags) (ceiltopg64 bytes) s vaddr
      (frameAddr phys)
    return (vaddr, s)

/-- The two loops of `map`: the address of the frame moves by `stride`, which is zero for pages that
raise page faults. -/
def mapLoop (root : Frame) (flags : BitVec 16) (stride : BitVec 64) :
    ℕ → Machine → BitVec 64 → BitVec 64 → Except Fault Machine
  | 0, s, _, _ => .ok s
  | n + 1, s, vaddr, paddr => do
    let s ← s.assign root vaddr paddr flags
    mapLoop root flags stride n s (vaddr + 4096#64) (paddr + stride)

/-- The number of pages that `map` makes. -/
def mapAmount (bytes paddr : BitVec 64) : ℕ :=
  if paddr &&& 0xFFF#64 ≠ 0 then ceiltopg64 bytes + 1 else ceiltopg64 bytes

/-- The address at which `map` puts its pages. -/
def mapStart (s : Machine) (map : Pagemap) (bytes : BitVec 64) (flags : BitVec 16)
    (source : BitVec 64) : Except Fault (BitVec 64 × Machine) :=
  if flags &&& 0x2000#16 ≠ 0 then .ok (source, s)
  else s.findContiguous map (ceiltopg64 bytes) false

/-- The flags of the pages that `map` makes. -/
def mapFlags (map : Pagemap) (flags : BitVec 16) : BitVec 16 :=
  let flags := flags ||| 0x201#16
  let flags := if flags &&& 0x4000#16 ≠ 0 then flags &&& ~~~0x1#16 else flags
  (flags ||| map.gflags.setWidth 16) &&& 0x0FFF#16

/-- The pages that `map` makes. -/
def mapPages (s : Machine) (map : Pagemap) (bytes paddr : BitVec 64) (flags : BitVec 16)
    (vaddr : BitVec 64) : Except Fault Machine :=
  if flags &&& 0x4000#16 ≠ 0 then
    mapLoop map.pageRoot (mapFlags map flags) 0 (mapAmount bytes paddr) s vaddr arbitraryAddr
  else
    mapLoop map.pageRoot (mapFlags map flags) 4096#64 (mapAmount bytes paddr) s vaddr
      (paddr - (paddr &&& 0xFFF#64))

/-- `Pagemap::map`. -/
def map (s : Machine) (map : Pagemap) (bytes paddr : BitVec 64) (flags : BitVec 16)
    (source : BitVec 64) : Except Fault (BitVec 64 × Machine) := do
  let (vaddr, s) ← s.mapStart map bytes flags source
  let s ← s.mapPages map bytes paddr flags vaddr
  return (vaddr + (paddr &&& 0xFFF#64), s)

/-! ## Unmapping -/

/-- `free_phys()`. -/
def freePhys (buff : List (BitVec 64)) (s : Machine) : Except Fault Machine :=
  buff.foldlM (fun s addr => s.physFree (frameOf addr)) s

def scrub (s : Machine) (root : Frame) (vaddr : BitVec 64) : Machine :=
  let raw := rawofInternal s.mem root vaddr
  if raw ≠ 0 ∧ raw &&& memPageMask ≠ arbitraryAddr ∧ raw &&& pageNophys = 0 then
    s.fill (frameOf (raw &&& memPageMask)) fun _ => 0x5A#64
  else s

/-- The loop of `free`; `buff` are the frames that wait to be freed. -/
def freeLoop (map : Pagemap) : ℕ → Machine → BitVec 64 → List (BitVec 64) → Except Fault Machine
  | 0, s, _, buff => s.freePhys buff
  | n + 1, s, vaddr, buff => do
    let (addr, s) ← (s.scrub map.pageRoot vaddr).unassign map vaddr
    if addr = 0 then freeLoop map n s (vaddr + 4096#64) buff
    else if buff.length + 1 = 256 then do
      let s ← s.freePhys (buff ++ [addr])
      freeLoop map n s (vaddr + 4096#64) []
    else freeLoop map n s (vaddr + 4096#64) (buff ++ [addr])

/-- `Pagemap::free`. -/
def free (s : Machine) (map : Pagemap) (addr bytes : BitVec 64) : Except Fault Machine :=
  freeLoop map (ceiltopg64 bytes) s addr []

/-! ## Creating, copying and destroying -/

/-- `Pagemap::Pagemap(start, end)`. -/
def create (s : Machine) (kernelRoot : Frame) : Except Fault (Frame × Machine) := do
  let (root, s) ← s.physAlloc
  return (root, s.fill root fun i => if i < 256#9 then 0 else s.mem kernelRoot i)

/-- A pass of the inner loop of `fork`. -/
def copyEntry (srctbl dsttbl : Frame) (s : Machine) (i : Index) : Except Fault Machine :=
  let entry := s.mem srctbl i
  if entry = 0 then .ok s
  else if entry &&& pageNophys ≠ 0 then .ok (s.write dsttbl i entry)
  else do
    let (dst, s) ← s.physAlloc
    let s := s.fill dst (s.mem (frameOf entry))
    return s.write dsttbl i (frameAddr dst ||| (entry &&& ~~~memPageMask))

/-- What `fork` has walked over. -/
structure Walk where
  tables : List (BitVec 64) := []
  skips : List (BitVec 64 × BitVec 64) := []
  deriving DecidableEq, Repr

/-- The loop of `fork`. -/
def forkLoop (source child : Frame) (vend : BitVec 64) :
    ℕ → Machine → BitVec 64 → Except Fault (Machine × Walk)
  | 0, _, _ => .error .divergence
  | fuel + 1, s, vaddr =>
    if vaddr < vend then
      match findTable s.mem source vaddr with
      | .error skip => do
        let (s, walk) ← forkLoop source child vend fuel s (vaddr + skip)
        return (s, { walk with skips := (vaddr, skip) :: walk.skips })
      | .ok srctbl => do
        let (dsttbl, s) ← s.findTableEnsure child vaddr
        let s := s.fill dsttbl fun _ => 0
        let s ← indices.foldlM (copyEntry srctbl dsttbl) s
        let (s, walk) ← forkLoop source child vend fuel s (vaddr + 0x200000#64)
        return (s, { walk with tables := vaddr :: walk.tables })
    else .ok (s, {})

/-- `Pagemap::fork`. Every pass moves on by two mebibytes at least. -/
def fork (s : Machine) (map : Pagemap) (kernelRoot : Frame) (gflags : BitVec 32) :
    Except Fault (Pagemap × Machine × Walk) := do
  let (root, s) ← s.create kernelRoot
  let (s, walk) ← forkLoop map.pageRoot root map.vend (2 ^ 43 + 1) s 0
  return ({ pageRoot := root, vstart := map.vstart, vend := map.vend, gflags := gflags }, s, walk)

/-! ## Initialising -/

def kernelPagemap (root : Frame) : Pagemap where
  pageRoot := root
  vstart := 0xFFFF800000000000#64
  vend := 0xFFFFFFFFFFFFFFFF#64
  gflags := 0

/-- The loop of `init` over the windows onto physical memory. -/
def initLoop (map : Pagemap) : ℕ → Machine → BitVec 64 → Except Fault Machine
  | 0, s, _ => .ok s
  | n + 1, s, prevPtable => do
    let (virt, s) ← s.map map 4096 0 2 0
    let pdp := frameOf (s.mem map.pageRoot (pml4Index virt))
    let pd := frameOf (s.mem pdp (pdpIndex virt))
    let ptable := frameOf (s.mem pd (pdIndex virt))
    if frameAddr ptable ≠ prevPtable then do
      let (vpt, s) ← s.map map 4096 (frameAddr ptable) 2 0
      initLoop map n s vpt
    else initLoop map n s prevPtable

/-- A pass of the loop of `create_first_levels`. -/
def createFirstLevel (root : Frame) (s : Machine) (i : Index) : Except Fault Machine :=
  if s.mem root i ≠ 0 then .ok s
  else do
    let (phys, s) ← s.physAlloc
    let s := s.write root i (frameAddr phys)
    return s.fill (frameOf (s.mem root i)) fun _ => 0

/-- `create_first_levels()`. -/
def createFirstLevels (root : Frame) (s : Machine) : Except Fault Machine :=
  ((List.range 256).map fun i => BitVec.ofNat 9 (256 + i)).foldlM (createFirstLevel root) s

/-- `Mem::init()`, which makes 256 windows. -/
def init (root : Frame) (s : Machine) : Except Fault Machine := do
  let s ← initLoop (kernelPagemap root) 256 s 0
  createFirstLevels root s

end Machine

/-- The frames that the loops of `~Pagemap` pass to `Phys::free` below a table. -/
def teardownTable (mem : Frame → Index → Entry) : ℕ → Frame → List Frame
  | 0, pt => (indices.map (mem pt)).filterMap fun entry =>
      if entry = 0 ∨ entry = arbitraryAddr ∨ entry &&& pageNophys ≠ 0 then none
      else some (frameOf entry)
  | level + 1, table => indices.flatMap fun i =>
      if mem table i = 0 then []
      else teardownTable mem level (frameOf (mem table i)) ++ [frameOf (mem table i)]

/-- The slots of the root that `~Pagemap` visits. -/
def teardownSlots (map : Pagemap) : List ℕ :=
  List.range' (map.vstart.toNat / 0x1000000000000)
    (map.vend.toNat / 0x1000000000000 + 1 - map.vstart.toNat / 0x1000000000000)

/-- `Pagemap::~Pagemap`: the frames passed to `Phys::free`, in order. -/
def teardown (mem : Frame → Index → Entry) (map : Pagemap) : List Frame :=
  ((teardownSlots map).flatMap fun i =>
    let entry := mem map.pageRoot (BitVec.ofNat 9 i)
    if entry = 0 then [] else teardownTable mem 2 (frameOf entry) ++ [frameOf entry]) ++
  [map.pageRoot]

end AexKernel.Mem
