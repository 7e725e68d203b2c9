import AexKernel.Mem.FlatPages
import AexKernel.Mem.LazyVector
import AexKernel.Mem.UserCalls

/-! # Memory mappings (`mem/mmap.cpp`)

`mmap` takes pages of a process's pagemap for a region, and `munmap` deletes the region that an
address lies in. -/

namespace AexKernel.Mem

open Library

/-! ## Regions -/

/-- `FileBackedMMapRegion::cache_slot`. -/
structure CacheSlot where
  id : BitVec 32
  buffer : BitVec 64
  referenced : BitVec 64
  deriving DecidableEq, Repr, Inhabited

/-- The class of a region: `MMapRegion`, or `FileBackedMMapRegion` with `cache_ptr` and `cache`. -/
inductive RegionClass
  | plain
  | fileBacked (cachePtr : ℕ) (cache : List CacheSlot)
  deriving DecidableEq, Repr

/-- `MMapRegion`, with the frames that were taken from `Phys` for it. -/
structure MMapRegion where
  start : BitVec 64
  len : BitVec 64
  cls : RegionClass
  obtained : List Frame
  deriving DecidableEq, Repr

/-- The test of `find_mmap_region` and `remove_region`. -/
def MMapRegion.contains (r : MMapRegion) (addr : BitVec 64) : Bool :=
  ¬ (addr < r.start ∨ r.start + r.len ≤ addr)

def pageAt (v : BitVec 64) (k : ℕ) : BitVec 64 := v + BitVec.ofNat 64 (4096 * k)

/-- A range of pages of a pagemap that are free. -/
structure Room (map : Pagemap) (m : PageMap) (v : BitVec 64) (n : ℕ) : Prop where
  aligned : v.toNat % 4096 = 0
  low : map.vstart.toNat ≤ v.toNat
  high : v.toNat + 4096 * n ≤ map.vend.toNat + 1
  free : ∀ k < n, m (pageOf (pageAt v k)) = 0

/-- A process: its `Pagemap`, whether it is another one than the kernel's, and where
`findContiguous` of its pagemap and of the kernel's finds free pages. -/
structure MMapProcess where
  pagemap : Pagemap
  user : Bool
  findContiguous : PageMap → ℕ → BitVec 64
  findKernel : PageMap → ℕ → BitVec 64
  found : ∀ m n, 0 < n → (∃ v, Room pagemap m v n) → Room pagemap m (findContiguous m n) n
  foundKernel : ∀ m, (∃ v, Room (Machine.kernelPagemap 0) m v 1) →
    Room (Machine.kernelPagemap 0) m (findKernel m 1) 1
  findContiguous_zero : ∀ m, findContiguous m 0 = 0

/-- The pages, the frames that `Phys::alloc` will propose, those in use, and `mmap_regions`. -/
structure MMapSpace where
  pages : PageMap
  supply : List { f : Frame // f ≠ 0 }
  outstanding : List Frame
  regions : LazyVector MMapRegion

namespace MMapSpace

/-! ## Pages -/

local instance : LawfulBEq Frame := inferInstance

/-- `Phys::alloc` of one frame. -/
def physAlloc (s : MMapSpace) : Except Fault (Frame × MMapSpace) :=
  match s.supply with
  | [] => .error outOfFrames
  | f :: rest =>
    if f.1 ∈ s.outstanding then .error outOfFrames
    else .ok (f.1, { s with supply := rest, outstanding := f.1 :: s.outstanding })

/-- `Phys::free` of one frame. -/
def physFree (s : MMapSpace) (f : Frame) : Except Fault MMapSpace :=
  if f ∈ s.outstanding then .ok { s with outstanding := s.outstanding.filter (· ≠ f) }
  else .error (.assertion "m_bitmap[ii] & tmp")

/-- The loop of `Pagemap::alloc`, with the frames that it got. -/
def allocLoop (flags : BitVec 16) :
    ℕ → MMapSpace → BitVec 64 → Except Fault (List Frame × MMapSpace)
  | 0, s, _ => .ok ([], s)
  | n + 1, s, vaddr => do
    let (f, s) ← s.physAlloc
    let s := { s with pages := s.pages.assign vaddr (frameAddr f) flags }
    let (frames, s) ← allocLoop flags n s (vaddr + 4096#64)
    return (f :: frames, s)

/-- `Pagemap::alloc`. -/
def alloc (s : MMapSpace) (map : Pagemap) (find : PageMap → ℕ → BitVec 64) (bytes : BitVec 64)
    (flags : BitVec 32) : Except Fault (BitVec 64 × List Frame × MMapSpace) :=
  if bytes = 0 then .ok (0, [], s)
  else
    let vaddr := find s.pages (ceiltopg64 bytes)
    if vaddr = 0 then .error (.kpanic "aa")
    else do
      let (frames, s) ← allocLoop (Machine.allocFlags map flags) (ceiltopg64 bytes) s vaddr
      return (vaddr, frames, s)

/-- The two loops of `Pagemap::map`. -/
def mapLoop (flags : BitVec 16) (stride : BitVec 64) : ℕ → PageMap → BitVec 64 → BitVec 64 → PageMap
  | 0, m, _, _ => m
  | n + 1, m, vaddr, paddr =>
    mapLoop flags stride n (m.assign vaddr paddr flags) (vaddr + 4096#64) (paddr + stride)

/-- `Pagemap::map` at an address that is given or was found. -/
def mapAt (s : MMapSpace) (map : Pagemap) (bytes paddr : BitVec 64) (flags : BitVec 16)
    (vaddr : BitVec 64) : BitVec 64 × MMapSpace :=
  let pages :=
    if flags &&& 0x4000#16 ≠ 0 then
      mapLoop (Machine.mapFlags map flags) 0 (Machine.mapAmount bytes paddr) s.pages vaddr
        arbitraryAddr
    else
      mapLoop (Machine.mapFlags map flags) 4096#64 (Machine.mapAmount bytes paddr) s.pages vaddr
        (paddr - (paddr &&& 0xFFF#64))
  (vaddr + (paddr &&& 0xFFF#64), { s with pages })

/-- The loop of `Pagemap::free`. -/
def freeLoop (map : Pagemap) : ℕ → MMapSpace → BitVec 64 → Except Fault MMapSpace
  | 0, s, _ => .ok s
  | n + 1, s, vaddr =>
    if vaddr < map.vstart then .error (.assertion "virt >= vstart")
    else if map.vend < vaddr then .error (.assertion "virt <= vend")
    else
      let (addr, pages) := s.pages.call (.unassign vaddr)
      let s := { s with pages }
      if addr.getD 0 = 0 then freeLoop map n s (vaddr + 4096#64)
      else do
        let s ← s.physFree (frameOf (addr.getD 0))
        freeLoop map n s (vaddr + 4096#64)

/-- `Pagemap::free`. -/
def free (s : MMapSpace) (map : Pagemap) (addr bytes : BitVec 64) : Except Fault MMapSpace :=
  freeLoop map (ceiltopg64 bytes) s addr

/-! ## Mapping -/

/-- `PROT_WRITE`. -/
def protWrite : BitVec 32 := 0x02#32
/-- `MAP_FIXED`. -/
def mapFixed : BitVec 32 := 0x04#32
/-- `MAP_ANONYMOUS`. -/
def mapAnonymous : BitVec 32 := 0x10#32

/-- `aflags` of `mmap`; those of `read` are the ones without `PROT_WRITE`. -/
def aflags (p : MMapProcess) (prot : BitVec 32) : BitVec 16 :=
  (if p.user then 4#16 else 0) ||| (if prot &&& protWrite ≠ 0 then 2#16 else 0)

/-- `process->mmap_regions.push(region)`. -/
def push (s : MMapSpace) (r : MMapRegion) : Except Fault MMapSpace := do
  let (_, regions) ← s.regions.push r
  return { s with regions }

/-- The loop of `FileBackedMMapRegion::FileBackedMMapRegion`. -/
def allocBuffers (p : MMapProcess) :
    ℕ → MMapSpace → Except Fault (List CacheSlot × List Frame × MMapSpace)
  | 0, s => .ok ([], [], s)
  | n + 1, s => do
    let (buffer, frames, s) ← s.alloc (Machine.kernelPagemap 0) p.findKernel 4096 2
    let (cache, frames', s) ← allocBuffers p n s
    return (⟨-1, buffer, 0⟩ :: cache, frames ++ frames', s)

/-- The file that is mapped, by what its `mmap` does. -/
inductive MappedFile
  | inode
  | terminal (output limit : BitVec 64)
  | other

/-- The values of `error_t` that `mmap` returns. -/
inductive MMapError
  | ebadf | einval | erange | enosys
  /-- What `dup` returned. -/
  | dup (code : ℕ)
  deriving DecidableEq, Repr

/-- `pageceil`. -/
def pageceil (len : BitVec 64) : BitVec 64 := (len + 4095#64) / 4096#64 * 4096#64

/-- The arguments of `mmap` that it reads. -/
structure MMapRequest where
  len : BitVec 64
  prot : BitVec 32
  flags : BitVec 32
  file : Option (MappedFile × Option ℕ)
  offset : BitVec 64

/-- The part of `mmap` for `MAP_ANONYMOUS`. -/
def mmapAnonymous (p : MMapProcess) (s : MMapSpace) (len : BitVec 64) (aflags : BitVec 16) :
    Except Fault (BitVec 64 × MMapSpace) := do
  let (addr, frames, s) ← s.alloc p.pagemap p.findContiguous len (aflags.setWidth 32)
  let s ← s.push ⟨addr, len, .plain, frames⟩
  return (addr, s)

/-- `InodeFile::mmap`, and the region that it makes pushed. -/
def mmapInode (p : MMapProcess) (s : MMapSpace) (len : BitVec 64) (aflags : BitVec 16) :
    Except Fault (BitVec 64 × MMapSpace) := do
  let (addr, s) := s.mapAt p.pagemap len 0 (0x4000#16 ||| aflags)
    (p.findContiguous s.pages (ceiltopg64 len))
  let (cache, frames, s) ← allocBuffers p 8 s
  let s ← s.push ⟨addr, len, .fileBacked 0 cache, frames⟩
  return (addr, s)

/-- The end of `TTYChar::mmap`, and the region that it makes pushed. -/
def mmapTerminal (p : MMapProcess) (s : MMapSpace) (len : BitVec 64) (aflags : BitVec 16)
    (output : BitVec 64) : Except Fault (BitVec 64 × MMapSpace) := do
  let (addr, s) := s.mapAt p.pagemap len (s.pages.paddrof output) aflags
    (p.findContiguous s.pages (ceiltopg64 len))
  let s ← s.push ⟨addr, len, .plain, []⟩
  return (addr, s)

/-- `mmap(process, addr, len, prot, flags, file, offset)`. -/
def mmap (p : MMapProcess) (s : MMapSpace) (q : MMapRequest) :
    Except Fault (Except MMapError (BitVec 64) × MMapSpace) :=
  if q.flags &&& mapFixed ≠ 0 then .error (.kpanic "Not implemented")
  else if q.flags &&& mapAnonymous ≠ 0 then do
    let (addr, s) ← mmapAnonymous p s q.len (aflags p q.prot)
    return (.ok addr, s)
  else
    match q.file with
    | none => .ok (.error .ebadf, s)
    | some (_, some code) => .ok (.error (.dup code), s)
    | some (.other, none) => .ok (.error .enosys, s)
    | some (.inode, none) => do
      let (addr, s) ← mmapInode p s q.len (aflags p q.prot)
      return (.ok addr, s)
    | some (.terminal output limit, none) =>
      if q.offset &&& 0xFFF#64 ≠ 0 then .ok (.error .einval, s)
      else if limit < pageceil q.len + q.offset then .ok (.error .erange, s)
      else do
        let (addr, s) ← mmapTerminal p s (pageceil q.len) (aflags p q.prot) output
        return (.ok addr, s)

/-! ## Page faults -/

/-- The loop of `findSlot`, and where it leaves `cache_ptr`. -/
def findSlotLoop (cache : List CacheSlot) (id prevId : BitVec 32) : ℕ → ℕ → Option ℕ × ℕ
  | 0, ptr => (none, ptr)
  | n + 1, ptr =>
    let next := if 8 ≤ ptr + 1 then 0 else ptr + 1
    if (cache.getD next default).id = id then (none, next)
    else if (cache.getD next default).id = prevId then findSlotLoop cache id prevId n next
    else (some ptr, next)

/-- `findSlot(id)`. -/
def findSlot (cache : List CacheSlot) (ptr : ℕ) (id : BitVec 32) : Option ℕ × ℕ :=
  findSlotLoop cache id (if id = 0 then 0 else id - 1) 8 ptr

/-- `find_mmap_region(process, addr)`, with the index of the region. -/
def findMmapRegion (s : MMapSpace) (addr : BitVec 64) : Option (ℕ × MMapRegion) :=
  s.regions.array.zipIdx.findSome? fun place =>
    match place.1 with
    | some r => if r.contains addr then some (place.2, r) else none
    | none => none

/-- A region changes where it stands. -/
def update (s : MMapSpace) (i : ℕ) (r : MMapRegion) : MMapSpace :=
  { s with regions := { s.regions with array := s.regions.array.set i (some r) } }

/-- A slot lets go of the page it shows, which raises page faults again. -/
def rearm (p : MMapProcess) (s : MMapSpace) (slot : CacheSlot) : MMapSpace :=
  if slot.id ≠ -1 then
    (s.mapAt p.pagemap 4096 0 (0x6000#16 ||| aflags p 0) slot.referenced).2
  else s

/-- `FileBackedMMapRegion::read(dst, offset, count)`, as far as pages and slots go. -/
def read (p : MMapProcess) (s : MMapSpace) (i : ℕ) (r : MMapRegion) (cachePtr : ℕ)
    (cache : List CacheSlot) (dst offset : BitVec 64) : MMapSpace :=
  let id : BitVec 32 := (offset / 4096#64).setWidth 32
  match findSlot cache cachePtr id with
  | (none, next) => s.update i { r with cls := .fileBacked next cache }
  | (some n, next) =>
    let slot := cache.getD n default
    let s := rearm p s slot
    let s := (s.mapAt p.pagemap 4096 (s.pages.paddrof slot.buffer) (0x2000#16 ||| aflags p 0) dst).2
    s.update i { r with cls := .fileBacked next (cache.set n ⟨id, slot.buffer, dst⟩) }

/-- `handle_page_fault`; a fault outside the regions ends in a signal. -/
def fault (p : MMapProcess) (s : MMapSpace) (addr : BitVec 64) : Except Fault MMapSpace :=
  match s.findMmapRegion addr with
  | none => .ok s
  | some (i, r) =>
    let aligned := addr / 4096#64 * 4096#64
    match r.cls with
    | .plain => .error (.kpanic "Default MMapRegion::read called")
    | .fileBacked cachePtr cache => .ok (read p s i r cachePtr cache aligned (aligned - r.start))

/-! ## Unmapping -/

/-- The loop of `~FileBackedMMapRegion`. -/
def freeBuffers (s : MMapSpace) (cache : List CacheSlot) : Except Fault MMapSpace :=
  cache.foldlM (fun s slot => s.free (Machine.kernelPagemap 0) slot.buffer 4096) s

/-- `delete region`: `~MMapRegion` does nothing. -/
def destroy (p : MMapProcess) (s : MMapSpace) (r : MMapRegion) : Except Fault MMapSpace :=
  match r.cls with
  | .plain => .ok s
  | .fileBacked _ cache => do
    let s ← s.free p.pagemap r.start r.len
    s.freeBuffers cache

/-- `munmap(process, addr, len)`, which does not look at the length. -/
def munmap (p : MMapProcess) (s : MMapSpace) (addr : BitVec 64) : Except Fault MMapSpace :=
  match s.findMmapRegion addr with
  | none => .ok s
  | some (i, r) => do
    let regions ← s.regions.erase i
    destroy p { s with regions } r

/-! ## Runs -/

/-- What happens to a process. -/
inductive Call
  | mmap (q : MMapRequest)
  | fault (addr : BitVec 64)
  | munmap (addr : BitVec 64)
  | elsewhere (pages : PageMap) (supply : List { f : Frame // f ≠ 0 }) (outstanding : List Frame)

def step (p : MMapProcess) (s : MMapSpace) : Call → Except Fault MMapSpace
  | .mmap q => (mmap p s q).map (·.2)
  | .fault addr => fault p s addr
  | .munmap addr => munmap p s addr
  | .elsewhere pages supply outstanding => .ok { s with pages, supply, outstanding }

end MMapSpace

end AexKernel.Mem
