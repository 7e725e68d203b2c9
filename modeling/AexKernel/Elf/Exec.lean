import AexKernel.Elf.Image
import AexKernel.Library.Ensures
import AexKernel.Library.Span
import AexKernel.Mem.FlatPages
import AexKernel.Mem.UserCalls

/-! # Loading programs (`arch/x86_64/mod/core/elf64exec/elf64executor.cpp`)

`Elf64Executor::exec` fills the memory of a process from the sections of a file. -/

namespace AexKernel.Elf

open Library Mem BitVec Function

/-! ## Memory -/

/-- The pagemaps of the process and of the kernel, physical memory by its bytes, the frames that
`Phys::alloc` will hand out and those that `Phys::free` got. -/
structure Memory where
  process : PageMap
  kernel : PageMap
  bytes : BitVec 64 → BitVec 8
  supply : List Frame
  freed : List Frame := []
  stores : List (BitVec 64) := []

/-- What `exec` finds: the process's `Pagemap`, and where `findContiguous` of the kernel's pagemap
finds free pages. -/
structure Surroundings where
  pagemap : Pagemap
  findContiguous : PageMap → ℕ → BitVec 64
  aligned : ∀ m n, findContiguous m n &&& 0xFFF#64 = 0

def Surroundings.InKernel (around : Surroundings) : Prop :=
  ∀ m n, 0xFFFF800000000000 ≤ (around.findContiguous m n).toNat

namespace Memory

/-- `memset64` of a whole frame with a word that has one byte. -/
def fillFrame (s : Memory) (f : Frame) (b : BitVec 8) : Memory :=
  { s with bytes := fun a =>
      if frameOf a = f then if a &&& 7#64 = 0 then b else 0 else s.bytes a }

/-- The loop of `Pagemap::alloc` on the process's pagemap. -/
def allocLoop (flags : BitVec 16) : ℕ → Memory → BitVec 64 → Except Fault Memory
  | 0, s, _ => .ok s
  | n + 1, s, vaddr =>
    match s.supply with
    | [] => .error (.kpanic "Failed to AEX::Mem::Phys::alloc()")
    | f :: rest =>
      let s := { s with supply := rest }
      let s := s.fillFrame f 0
      allocLoop flags n { s with process := s.process.assign vaddr (frameAddr f) flags }
        (vaddr + 4096#64)

/-- `Pagemap::alloc` of the process's pagemap with `PAGE_FIXED`. -/
def alloc (s : Memory) (around : Surroundings) (bytes : BitVec 64) (flags : BitVec 32)
    (source : BitVec 64) : Except Fault (BitVec 64 × Memory) :=
  if bytes = 0 then .ok (0, s)
  else if source = 0 then .error (.kpanic "aa")
  else do
    let s ← allocLoop (Machine.allocFlags around.pagemap flags) (ceiltopg64 bytes) s source
    return (source, s)

/-- The loop of `Pagemap::map`. -/
def mapLoop (flags : BitVec 16) : ℕ → PageMap → BitVec 64 → BitVec 64 → PageMap
  | 0, m, _, _ => m
  | n + 1, m, vaddr, paddr =>
    mapLoop flags n (m.assign vaddr paddr flags) (vaddr + 4096#64) (paddr + 4096#64)

/-- `Pagemap::map` of the kernel's pagemap. -/
def map (s : Memory) (around : Surroundings) (bytes paddr : BitVec 64) (flags : BitVec 16) :
    BitVec 64 × Memory :=
  let start := around.findContiguous s.kernel (ceiltopg64 bytes)
  let kernel := mapLoop (Machine.mapFlags (Machine.kernelPagemap 0) flags)
    (Machine.mapAmount bytes paddr) s.kernel start (paddr - (paddr &&& 0xFFF#64))
  (start + (paddr &&& 0xFFF#64), { s with kernel })

/-- A page that owns its frame is overwritten before the frame is freed. -/
def scrub (s : Memory) (vaddr : BitVec 64) : Memory :=
  let raw := s.kernel (pageOf vaddr)
  if raw ≠ 0 ∧ raw &&& memPageMask ≠ arbitraryAddr ∧ raw &&& pageNophys = 0 then
    s.fillFrame (frameOf raw) 0x5A
  else s

/-- The loop of `Pagemap::free` on the kernel's pagemap. -/
def freeLoop : ℕ → Memory → BitVec 64 → Except Fault Memory
  | 0, s, _ => .ok s
  | n + 1, s, vaddr =>
    let s := s.scrub vaddr
    if vaddr < 0xFFFF800000000000#64 then .error (.assertion "virt >= vstart")
    else
      let (addr, kernel) := s.kernel.call (.unassign vaddr)
      let freed := if addr = some 0 then s.freed else frameOf (addr.getD 0) :: s.freed
      freeLoop n { s with kernel, freed } (vaddr + 4096#64)

/-- `Pagemap::free` of the kernel's pagemap. -/
def free (s : Memory) (addr bytes : BitVec 64) : Except Fault Memory :=
  freeLoop (ceiltopg64 bytes) s addr

/-- Writing bytes one after the other at an address of the kernel. -/
def store (s : Memory) (v : BitVec 64) : List (BitVec 8) → Except Fault Memory
  | [] => .ok s
  | b :: rest =>
    match s.kernel.translate v with
    | none => .error .outOfBounds
    | some a =>
      store { s with bytes := Function.update s.bytes a b, stores := s.stores ++ [a] } (v + 1) rest

end Memory

/-! ## The loop over the sections -/

namespace SectionHeader

/-- `flags` in `exec`. -/
def pageFlags (h : SectionHeader) : BitVec 32 :=
  (4#32 ||| pageFixed) ||| (if h.flags &&& 1 ≠ 0 then 2#32 else 0) |||
    (if h.flags &&& 4 ≠ 0 then pageExec else 0)

/-- What is written for a piece. -/
def pieceBytes (h : SectionHeader) (file : BitVec 64 → BitVec 8) (fptr chkSize : BitVec 64) :
    List (BitVec 8) :=
  if h.type ≠ .noData then (List.range chkSize.toNat).map fun i => file (fptr + BitVec.ofNat 64 i)
  else List.replicate (512 * 8) 0

end SectionHeader

namespace Memory

/-- The physical address of a piece, whose page is allocated when it is missing. -/
def backing (s : Memory) (around : Surroundings) (h : SectionHeader) (ptr chkSize : BitVec 64) :
    Except Fault (BitVec 64 × Memory) :=
  let paddr := s.process.paddrof ptr
  if paddr = 0 then do
    let (vaddr, s) ← s.alloc around chkSize h.pageFlags ptr
    return (s.process.paddrof vaddr, s)
  else .ok (paddr, s)

def loadPiece (s : Memory) (around : Surroundings) (file : BitVec 64 → BitVec 8) (h : SectionHeader)
    (ptr fptr chkSize : BitVec 64) : Except Fault Memory := do
  let (paddr, s) ← s.backing around h ptr chkSize
  let (kaddr, s) := s.map around chkSize paddr 2
  let s ← s.store kaddr (h.pieceBytes file fptr chkSize)
  s.free kaddr chkSize

/-- `chk_size`. -/
def chkSize (ptr fin : BitVec 64) : BitVec 64 :=
  if 4096#64 - (ptr &&& 0xFFF#64) < fin - ptr then 4096#64 - (ptr &&& 0xFFF#64) else fin - ptr

def loadPieces (around : Surroundings) (file : BitVec 64 → BitVec 8) (h : SectionHeader)
    (fin : BitVec 64) : ℕ → Memory → BitVec 64 → BitVec 64 → Except Fault Memory
  | 0, s, ptr, _ => if ptr < fin then .error .divergence else .ok s
  | fuel + 1, s, ptr, fptr =>
    if ptr < fin then do
      let s ← s.loadPiece around file h ptr fptr (chkSize ptr fin)
      loadPieces around file h fin fuel s (ptr + chkSize ptr fin) (fptr + chkSize ptr fin)
    else .ok s

/-- A pass of the loop over the sections. Every piece has a byte at least. -/
def loadSection (around : Surroundings) (file : BitVec 64 → BitVec 8) (s : Memory)
    (h : SectionHeader) : Except Fault Memory :=
  if h.IsLoaded then
    loadPieces around file h (h.address + h.size) h.size.toNat s h.address h.fileOffset
  else .ok s

/-! ## What a piece does -/

section Piece

variable {s s' s1 : Memory} {env : Surroundings} {file : BitVec 64 → BitVec 8} {h : SectionHeader}
  {ptr fptr chk paddr : BitVec 64}

theorem ceiltopg64_piece (hp : 0 < chk.toNat) (hl : chk.toNat ≤ 4096) : ceiltopg64 chk = 1 := by
  rw [ceiltopg64, toNat_add, show (4095#64).toNat = 4095 from rfl]
  omega

def grant (s : Memory) (f : Frame) (rest : List Frame) (ptr : BitVec 64) (flags : BitVec 16) :
    Memory :=
  let s := { s with supply := rest }.fillFrame f 0
  { s with process := s.process.assign ptr (frameAddr f) flags }

theorem grant_process (f : Frame) (rest : List Frame) (flags : BitVec 16) :
    (s.grant f rest ptr flags).process =
      Function.update s.process (pageOf ptr) (frameAddr f ||| flags.setWidth 64) := by
  show update s.process (pageOf ptr) ((frameAddr f &&& memPageMask) ||| _) = _
  rw [and_memPageMask, frameOf_frameAddr]

theorem grant_bytes {f : Frame} {rest : List Frame} {flags : BitVec 16} (a : BitVec 64) :
    (s.grant f rest ptr flags).bytes a = if frameOf a = f then 0 else s.bytes a := by
  show (if frameOf a = f then if a &&& 7#64 = 0 then 0 else 0 else s.bytes a) = _
  rw [ite_self]

theorem frameOf_granted {f : Frame} {map : Pagemap} {flags : BitVec 32} :
    frameOf (frameAddr f ||| (Machine.allocFlags map flags).setWidth 64) = f := by
  rw [frameOf_or, frameOf_frameAddr, frameOf_flags (allocFlags_lt map flags)]
  exact or_zero

theorem backing_cases (hp : 0 < chk.toNat) (hle : chk.toNat ≤ 4096)
    (he : ∀ f ∈ s.supply, f ≠ 0) (hr : s.backing env h ptr chk = .ok (paddr, s1)) :
    paddr = s1.process.phys ptr ∧
      ((frameOf (s.process (pageOf ptr)) ≠ 0 ∧ s1 = s) ∨
        (frameOf (s.process (pageOf ptr)) = 0 ∧ ∃ f rest, s.supply = f :: rest ∧
          s1 = s.grant f rest ptr (Machine.allocFlags env.pagemap h.pageFlags))) := by
  unfold backing at hr
  by_cases hfr : frameOf (s.process (pageOf ptr)) = 0
  · have hz : s.process.paddrof ptr = 0 := by rw [PageMap.paddrof_eq, if_pos hfr]
    rw [if_pos hz] at hr
    obtain ⟨⟨vaddr, s2⟩, ha, hr⟩ := bind_eq_ok.mp hr
    have hc : chk ≠ 0 := by
      rintro rfl
      exact absurd hp (by decide)
    unfold alloc at ha
    rw [if_neg hc] at ha
    split_ifs at ha with ht
    obtain ⟨s3, hl, hpu⟩ := bind_eq_ok.mp ha
    obtain ⟨rfl, rfl⟩ := Prod.mk.inj (Except.ok.inj hpu)
    rw [ceiltopg64_piece hp hle] at hl
    cases hu : s.supply with
    | nil => simp [allocLoop, hu] at hl
    | cons f rest =>
      simp only [allocLoop, hu, Except.ok.injEq] at hl
      have hs : s3 = s.grant f rest ptr (Machine.allocFlags env.pagemap h.pageFlags) :=
        hl.symm
      cases hr
      refine ⟨?_, .inr ⟨hfr, f, rest, rfl, hs⟩⟩
      have hf : f ≠ 0 := he f (hu ▸ List.mem_cons_self)
      rw [PageMap.paddrof_eq, if_neg]
      rw [hs, grant_process, update_self, frameOf_granted]
      exact hf
  · have hn : s.process.paddrof ptr ≠ 0 := by
      rw [PageMap.paddrof_eq, if_neg hfr]
      exact PageMap.phys_ne_zero hfr
    rw [if_neg hn] at hr
    cases hr
    refine ⟨?_, .inl ⟨hfr, rfl⟩⟩
    rw [PageMap.paddrof_eq, if_neg hfr]

def windowEntry (paddr : BitVec 64) : Entry := (paddr &&& memPageMask) ||| 0x203#64

theorem frameOf_windowEntry : frameOf (windowEntry paddr) = frameOf paddr := by
  rw [windowEntry, frameOf_or, frameOf_and_memPageMask, show frameOf 0x203#64 = 0 from rfl]
  exact or_zero

theorem windowEntry_present : windowEntry paddr &&& pagePresent ≠ 0 :=
  ne_zero_of_getLsbD (i := 0) (by simp [windowEntry]) rfl

theorem windowEntry_nophys : windowEntry paddr &&& pageNophys ≠ 0 :=
  ne_zero_of_getLsbD (i := 9) (by simp [windowEntry]) rfl

theorem map_kernel (hp : 0 < chk.toNat) (hl : chk.toNat ≤ 4096) :
    (s.map env chk paddr 2).2.kernel =
      let start := env.findContiguous s.kernel (ceiltopg64 chk)
      let base := paddr - (paddr &&& 0xFFF#64)
      let first := update s.kernel (pageOf start) (windowEntry base)
      if paddr &&& 0xFFF#64 ≠ 0 then
        update first (pageOf (start + 4096#64)) (windowEntry (base + 4096#64))
      else first := by
  unfold map Machine.mapAmount
  rw [ceiltopg64_piece hp hl]
  split_ifs with ho <;> rfl

theorem map_address (s : Memory) (env : Surroundings) (chk p : BitVec 64) :
    (s.map env chk p 2).1 =
      env.findContiguous s.kernel (ceiltopg64 chk) + (p &&& 0xFFF#64) := rfl

theorem findContiguous_mod (env : Surroundings) (kernel : PageMap) (n : ℕ) :
    (env.findContiguous kernel n).toNat % 4096 = 0 := by
  rw [← toNat_and_fff, env.aligned]
  rfl

variable {k : ℕ}

theorem map_first (s : Memory) (env : Surroundings) (p : BitVec 64) (hp : 0 < chk.toNat)
    (hl : chk.toNat ≤ 4096) (hk : p.toNat % 4096 + k < 4096) :
    (s.map env chk p 2).2.kernel
        (pageOf ((s.map env chk p 2).1 + BitVec.ofNat 64 k)) =
      windowEntry (p - (p &&& 0xFFF#64)) := by
  have hs := findContiguous_mod env s.kernel (ceiltopg64 chk)
  rw [map_kernel hp hl, map_address]
  generalize env.findContiguous s.kernel (ceiltopg64 chk) = start at hs ⊢
  have ha : pageOf (start + (p &&& 0xFFF#64) + BitVec.ofNat 64 k) = pageOf start := by
    apply eq_of_toNat_eq
    rw [toNat_pageOf, toNat_pageOf, toNat_add, toNat_add, toNat_and_fff, toNat_ofNat]
    omega
  rw [ha]
  dsimp only
  split_ifs with ho
  · rw [update_of_ne, update_self]
    intro he
    have hn := congrArg BitVec.toNat he
    rw [toNat_pageOf, toNat_pageOf, toNat_add, show (4096#64).toNat = 4096 from rfl] at hn
    omega
  · rw [update_self]

theorem map_second (s : Memory) (env : Surroundings) (p : BitVec 64) (hp : 0 < chk.toNat)
    (hl : chk.toNat ≤ 4096) (ht : k < 4096) (hk : 4096 ≤ p.toNat % 4096 + k) :
    (s.map env chk p 2).2.kernel
        (pageOf ((s.map env chk p 2).1 + BitVec.ofNat 64 k)) =
      windowEntry (p - (p &&& 0xFFF#64) + 4096#64) := by
  have hs := findContiguous_mod env s.kernel (ceiltopg64 chk)
  rw [map_kernel hp hl, map_address]
  generalize env.findContiguous s.kernel (ceiltopg64 chk) = start at hs ⊢
  have ho : p &&& 0xFFF#64 ≠ 0 := by
    intro hz
    have hn := toNat_and_fff p
    rw [hz, show (0 : BitVec 64).toNat = 0 from rfl] at hn
    omega
  have ha : pageOf (start + (p &&& 0xFFF#64) + BitVec.ofNat 64 k) =
      pageOf (start + 4096#64) := by
    apply eq_of_toNat_eq
    rw [toNat_pageOf, toNat_pageOf, toNat_add, toNat_add, toNat_and_fff,
      toNat_ofNat, toNat_add, show (4096#64).toNat = 4096 from rfl]
    omega
  rw [ha]
  rw [if_pos ho, update_self]

theorem map_translate (s : Memory) (env : Surroundings) (paddr : BitVec 64)
    (hp : 0 < chk.toNat) (hl : chk.toNat ≤ 4096) (hk : k < 4096) :
    (s.map env chk paddr 2).2.kernel.translate
      ((s.map env chk paddr 2).1 + BitVec.ofNat 64 k) = some (paddr + BitVec.ofNat 64 k) := by
  have ht := findContiguous_mod env s.kernel (ceiltopg64 chk)
  have hb : (paddr - (paddr &&& 0xFFF#64)).toNat = paddr.toNat - paddr.toNat % 4096 := by
    rw [BitVec.toNat_sub_of_le, toNat_and_fff]
    rw [le_def, toNat_and_fff]
    exact Nat.mod_le _ _
  have ho : ((s.map env chk paddr 2).1 + BitVec.ofNat 64 k).toNat % 4096 =
      (paddr.toNat + k) % 4096 := by
    rw [map_address, toNat_add, toNat_add, toNat_and_fff, toNat_ofNat]
    omega
  have hv : ∀ p : BitVec 64,
      (s.map env chk paddr 2).2.kernel
        (pageOf ((s.map env chk paddr 2).1 + BitVec.ofNat 64 k)) = windowEntry p →
      4096 * (p.toNat / 4096) + (paddr.toNat + k) % 4096 = (paddr.toNat + k) % 2 ^ 64 →
      (s.map env chk paddr 2).2.kernel.translate
        ((s.map env chk paddr 2).1 + BitVec.ofNat 64 k) = some (paddr + BitVec.ofNat 64 k) := by
    intro p he hs
    unfold PageMap.translate
    rw [he, if_neg windowEntry_present]
    refine congrArg some (eq_of_toNat_eq ?_)
    rw [PageMap.toNat_phys, he, frameOf_windowEntry, toNat_frameOf, ho, toNat_add, toNat_ofNat]
    omega
  by_cases hi : paddr.toNat % 4096 + k < 4096
  · refine hv _ (map_first s env paddr hp hl hi) ?_
    rw [hb]
    omega
  · refine hv _ (map_second s env paddr hp hl hk (Nat.not_lt.mp hi)) ?_
    rw [toNat_add, hb, show (4096#64).toNat = 4096 from rfl]
    omega

variable {v a : BitVec 64}

theorem store_eq {values : List (BitVec 8)}
    (hw : ∀ k < values.length, s.kernel.translate (v + BitVec.ofNat 64 k) =
      some (a + BitVec.ofNat 64 k)) :
    s.store v values = .ok { s with
      bytes := storeFrom s.bytes a values, stores := s.stores ++ span a values.length } := by
  induction values generalizing s v a with
  | nil => simp [store, storeFrom, span]
  | cons b rest ih =>
    have hf := hw 0 (Nat.succ_pos _)
    simp only [BitVec.add_zero] at hf
    unfold store
    rw [hf]
    dsimp only
    rw [ih (a := a + 1)]
    · simp [storeFrom, span]
    intro k hk
    have hn := hw (k + 1) (Nat.succ_lt_succ hk)
    rw [add_one_add_ofNat, add_one_add_ofNat]
    exact hn

theorem free_window (hp : 0 < chk.toNat) (he : chk.toNat ≤ 4096)
    (hn : s.kernel (pageOf v) &&& pageNophys ≠ 0) :
    s.free v chk = if v < 0xFFFF800000000000#64 then .error (.assertion "virt >= vstart")
      else .ok { s with kernel := update s.kernel (pageOf v) 0 } := by
  unfold free
  have hs : s.scrub v = s := by
    unfold scrub
    exact if_neg fun hc => hn hc.2.2
  rw [ceiltopg64_piece hp he, freeLoop, hs]
  by_cases hl : v < 0xFFFF800000000000#64
  · rw [if_pos hl, if_pos hl]
  rw [if_neg hl, if_neg hl]
  simp only [PageMap.call, freeLoop, if_pos hn]
  rfl

theorem length_pieceBytes_le (h : SectionHeader) (file : BitVec 64 → BitVec 8) (fptr : BitVec 64)
    (hl : chk.toNat ≤ 4096) : (h.pieceBytes file fptr chk).length ≤ 4096 := by
  unfold SectionHeader.pieceBytes
  split_ifs with hd
  · rw [List.length_map, List.length_range]
    exact hl
  · rw [List.length_replicate]

theorem length_pieceBytes_pos (h : SectionHeader) (file : BitVec 64 → BitVec 8) (fptr : BitVec 64)
    (hp : 0 < chk.toNat) : 0 < (h.pieceBytes file fptr chk).length := by
  unfold SectionHeader.pieceBytes
  split_ifs with hd
  · rw [List.length_map, List.length_range]
    exact hp
  · rw [List.length_replicate]
    decide

theorem loadPiece_eq (hp : 0 < chk.toNat) (hl : chk.toNat ≤ 4096)
    (hb : s.backing env h ptr chk = .ok (paddr, s1)) :
    s.loadPiece env file h ptr fptr chk =
      if (s1.map env chk paddr 2).1 < 0xFFFF800000000000#64 then
        .error (.assertion "virt >= vstart")
      else .ok { (s1.map env chk paddr 2).2 with
        kernel := update (s1.map env chk paddr 2).2.kernel
          (pageOf (s1.map env chk paddr 2).1) 0
        bytes := storeFrom s1.bytes paddr (h.pieceBytes file fptr chk)
        stores := s1.stores ++ span paddr (h.pieceBytes file fptr chk).length } := by
  have he := length_pieceBytes_le h file fptr hl
  have hn := map_first s1 env paddr hp hl (k := 0) (Nat.mod_lt _ (by decide))
  rw [BitVec.add_zero] at hn
  unfold loadPiece
  rw [hb, ok_bind]
  dsimp only
  rw [store_eq fun k hk => map_translate s1 env paddr hp hl (hk.trans_le he), ok_bind,
    free_window hp hl]
  · rfl
  rw [hn]
  exact windowEntry_nophys

theorem loadPiece_spec (hp : 0 < chk.toNat) (hl : chk.toNat ≤ 4096)
    (hr : s.loadPiece env file h ptr fptr chk = .ok s') :
    ∃ paddr s1, s.backing env h ptr chk = .ok (paddr, s1) ∧ s'.process = s1.process ∧
      s'.supply = s1.supply ∧ s'.bytes = storeFrom s1.bytes paddr (h.pieceBytes file fptr chk) ∧
      s'.stores = s1.stores ++ span paddr (h.pieceBytes file fptr chk).length := by
  obtain ⟨⟨paddr, s1⟩, hb, -⟩ := bind_eq_ok.mp hr
  rw [loadPiece_eq hp hl hb] at hr
  split_ifs at hr
  cases hr
  exact ⟨paddr, s1, hb, rfl, rfl, rfl, rfl⟩

theorem loadPiece_mapped (hk : env.InKernel) (hp : 0 < chk.toNat) (hl : chk.toNat ≤ 4096)
    (hf : frameOf (s.process (pageOf ptr)) ≠ 0) :
    Ensures (fun _ => True) (s.loadPiece env file h ptr fptr chk) fun s' =>
      s'.process = s.process ∧
      s'.bytes = storeFrom s.bytes (s.process.phys ptr) (h.pieceBytes file fptr chk) ∧
      s'.stores = s.stores ++ span (s.process.phys ptr) (h.pieceBytes file fptr chk).length := by
  have ha : s.process.paddrof ptr = s.process.phys ptr := by
    rw [PageMap.paddrof_eq, if_neg hf]
  have hn : s.process.paddrof ptr ≠ 0 := by
    rw [ha]
    exact PageMap.phys_ne_zero hf
  have hb : s.backing env h ptr chk = .ok (s.process.phys ptr, s) := by
    unfold backing
    rw [if_neg hn, ha]
  have hw : ¬ (s.map env chk (s.process.phys ptr) 2).1 < 0xFFFF800000000000#64 := by
    have hs : (env.findContiguous s.kernel (ceiltopg64 chk)).toNat % 4096 = 0 := by
      rw [← toNat_and_fff, env.aligned]
      rfl
    have ho := hk s.kernel (ceiltopg64 chk)
    rw [map_address, lt_def, toNat_add, toNat_and_fff,
      show (0xFFFF800000000000#64).toNat = 0xFFFF800000000000 from rfl]
    omega
  rw [loadPiece_eq hp hl hb, if_neg hw]
  exact .ok ⟨rfl, rfl, rfl⟩

end Piece

/-! ## The pieces of a section -/

section Pieces

variable {ptr fin : BitVec 64}

theorem toNat_chkSize (hl : ptr.toNat < fin.toNat) :
    (chkSize ptr fin).toNat = min (4096 - ptr.toNat % 4096) (fin.toNat - ptr.toNat) := by
  have hp : (4096#64 - (ptr &&& 0xFFF#64)).toNat = 4096 - ptr.toNat % 4096 := by
    rw [toNat_sub, toNat_and_fff, show (4096#64).toNat = 4096 from rfl]
    omega
  have hr : (fin - ptr).toNat = fin.toNat - ptr.toNat :=
    toNat_sub_of_le (le_def.mpr hl.le)
  unfold chkSize
  split_ifs with hc
  · rw [lt_def, hp, hr] at hc
    rw [hp]
    omega
  · rw [lt_def, hp, hr] at hc
    rw [hr]
    omega

theorem toNat_add_chkSize (hl : ptr.toNat < fin.toNat) :
    (ptr + chkSize ptr fin).toNat =
      ptr.toNat + min (4096 - ptr.toNat % 4096) (fin.toNat - ptr.toNat) := by
  rw [toNat_add, toNat_chkSize hl]
  omega

variable {env : Surroundings} {file : BitVec 64 → BitVec 8} {h : SectionHeader}
  {excluded : Fault → Prop}

variable {s : Memory}

theorem loadPieces_rule (I : BitVec 64 → Memory → Prop)
    (hp : ∀ ptr s, h.address.toNat ≤ ptr.toNat → ptr.toNat < fin.toNat → I ptr s →
      Ensures excluded (s.loadPiece env file h ptr (h.fileOffset + (ptr - h.address)) (chkSize
      ptr fin)) (I (ptr + chkSize ptr fin)))
    {fuel : ℕ} (hs : h.address.toNat ≤ ptr.toNat) (he : ptr.toNat ≤ fin.toNat)
    (hu : fin.toNat - ptr.toNat ≤ fuel) (hI : I ptr s) :
    Ensures excluded
      (loadPieces env file h fin fuel s ptr (h.fileOffset + (ptr - h.address))) (I fin) := by
  -- the induction is on the fuel, of which every piece takes a byte at least
  induction fuel generalizing ptr s with
  | zero =>
    have hf : ptr = fin := eq_of_toNat_eq (by omega)
    rw [loadPieces, if_neg (by rw [hf]; exact BitVec.lt_irrefl fin)]
    exact .ok (hf ▸ hI)
  | succ fuel ih =>
    unfold loadPieces
    by_cases hl : ptr < fin
    · rw [lt_def] at hl
      rw [if_pos (lt_def.mpr hl)]
      refine .bind (hp ptr s hs hl hI) ?_
      intro s' hI'
      have hn := toNat_add_chkSize hl
      have hfp : h.fileOffset + (ptr - h.address) + chkSize ptr fin =
          h.fileOffset + (ptr + chkSize ptr fin - h.address) := by
        rw [add_assoc, sub_add_eq_add_sub]
      rw [hfp]
      exact ih (by omega) (by omega) (by omega) hI'
    · rw [if_neg hl]
      rw [lt_def] at hl
      have hf : ptr = fin := eq_of_toNat_eq (by omega)
      exact .ok (hf ▸ hI)

theorem loadSection_rule (hf : h.address.toNat + h.size.toNat < 2 ^ 64) (ho : h.IsLoaded)
    (I : BitVec 64 → Memory → Prop)
    (hp : ∀ ptr s, h.address.toNat ≤ ptr.toNat → ptr.toNat < h.address.toNat + h.size.toNat →
      I ptr s → Ensures excluded (s.loadPiece env file h ptr (h.fileOffset + (ptr - h.address))
      (chkSize ptr (h.address + h.size))) (I (ptr + chkSize ptr (h.address + h.size))))
    (hI : I h.address s) :
    Ensures excluded (loadSection env file s h) (I (h.address + h.size)) := by
  have hi : (h.address + h.size).toNat = h.address.toNat + h.size.toNat := by
    rw [toNat_add]
    exact Nat.mod_eq_of_lt hf
  unfold loadSection
  rw [if_pos ho]
  have hu : (h.address + h.size).toNat - h.address.toNat ≤ h.size.toNat := by omega
  have hl := loadPieces_rule I (by rw [hi]; exact hp) (le_refl h.address.toNat)
    (by omega) hu hI
  rwa [sub_self, add_zero] at hl

end Pieces

end Memory

/-- A valid executable: its sections that are to be loaded lie in the user half and do not overlap.
-/
structure Executable where
  sections : List SectionHeader
  file : BitVec 64 → BitVec 8
  user : ∀ h ∈ sections, h.IsLoaded → h.address.toNat + h.size.toNat ≤ 2 ^ 47
  disjoint : sections.Pairwise fun h h' => h.IsLoaded → h'.IsLoaded →
    h.address.toNat + h.size.toNat ≤ h'.address.toNat ∨
      h'.address.toNat + h'.size.toNat ≤ h.address.toNat

/-- The loop over the sections in `Elf64Executor::exec`. -/
def Executable.load (e : Executable) (around : Surroundings) (s : Memory) : Except Fault Memory :=
  e.sections.foldlM (Memory.loadSection around e.file) s

end AexKernel.Elf
