import AexKernel.Library.Run
import AexKernel.Mem.KernelInit

/-! # The kernel half in all address spaces

After `Mem::init`, pagemaps are created and the kernel's pagemap is mapped, allocated from and
freed, in any order. -/

namespace AexKernel.Mem

open Library Machine BitVec

/-- The machine and the roots of the pagemaps that are alive, besides the kernel's. -/
structure KernelShare where
  machine : Machine
  maps : List Frame := []

/-- A step of the system. -/
inductive KernelCall
  /-- A constructor of `Pagemap`. -/
  | create
  | alloc (bytes : BitVec 64) (flags : BitVec 32) (source : BitVec 64)
  | allocContinuous (bytes : BitVec 64) (flags : BitVec 32) (source : BitVec 64)
  | map (bytes paddr : BitVec 64) (flags : BitVec 16) (source : BitVec 64)
  | free (addr bytes : BitVec 64)

namespace KernelShare

/-- The system after a step; `k` is the root of the kernel's pagemap. -/
def step (k : Frame) (a : KernelShare) : KernelCall → Except Fault KernelShare
  | .create => do
    let (root, s) ← a.machine.create k
    return { machine := s, maps := a.maps ++ [root] }
  | .alloc bytes flags source => do
    let (_, s) ← a.machine.alloc (kernelPagemap k) bytes flags source
    return { a with machine := s }
  | .allocContinuous bytes flags source => do
    let (_, s) ← a.machine.allocContinuous (kernelPagemap k) bytes flags source
    return { a with machine := s }
  | .map bytes paddr flags source => do
    let (_, s) ← a.machine.map (kernelPagemap k) bytes paddr flags source
    return { a with machine := s }
  | .free addr bytes => do
    let s ← a.machine.free (kernelPagemap k) addr bytes
    return { a with machine := s }

/-- The calls that keep the kernel half shared. -/
def Careful (k : Frame) (a : KernelShare) : KernelCall → Prop
  | .create => True
  | .alloc bytes flags source => a.maps ≠ [] →
      Placed k a.machine (flags &&& pageFixed ≠ 0) (flags &&& pageExec ≠ 0) source
        (ceiltopg64 bytes) (ceiltopg64 bytes)
  | .allocContinuous bytes flags source => bytes.toNat + 4096 ≤ 2 ^ 31 ∧ (a.maps ≠ [] →
      Placed k a.machine (flags &&& pageFixed ≠ 0) (flags &&& pageExec ≠ 0) source
        (ceiltopg64 bytes) (ceiltopg64 bytes))
  | .map bytes paddr flags source => a.maps ≠ [] →
      Placed k a.machine (flags &&& 0x2000#16 ≠ 0) false source (ceiltopg64 bytes)
        (mapAmount bytes paddr)
  | .free addr bytes => NoBootPage addr (ceiltopg64 bytes) ∧
      (a.maps ≠ [] → MappedRange k a.machine addr (ceiltopg64 bytes))

/-- The upper halves of the pagemaps refer to the same tables as the kernel's, so that addresses of
the kernel have the same entries in all of them. -/
structure Shared (k : Frame) (a : KernelShare) : Prop where
  tables : ∀ g ∈ a.maps, ∀ i, ¬ i < 256#9 → SameTable (a.machine.mem g i) (a.machine.mem k i)
  addresses : ∀ g ∈ a.maps, ∀ v, ¬ pml4Index v < 256#9 →
    rawofInternal a.machine.mem g v = rawofInternal a.machine.mem k v

variable {k : Frame} {a a' : KernelShare} {s₀ s1 : Machine}

variable {g f r : Frame} {v : BitVec 64}

theorem rawofInternal_of_sameTable {mem : Frame → Index → Entry}
    (h : SameTable (mem g (pml4Index v)) (mem k (pml4Index v))) :
    rawofInternal mem g v = rawofInternal mem k v := by
  have hf : findTable mem g (v &&& memPageMask) = findTable mem k (v &&& memPageMask) := by
    rw [findTable, findTable, pml4Index_and_memPageMask, h.frame]
    simp only [h.zero]
  rw [rawofInternal, rawofInternal, hf]

theorem step_kernelHalf (h : KernelHalf k a.maps a.machine) {call : KernelCall}
    (hc : Careful k a call) (hca : step k a call = .ok a') :
    KernelHalf k a'.maps a'.machine := by
  cases call with
  | create =>
    obtain ⟨⟨root, s⟩, hr, hp⟩ := bind_eq_ok.mp hca
    cases hp
    exact h.create hr
  | alloc bytes flags source =>
    obtain ⟨⟨v, s⟩, ha, hp⟩ := bind_eq_ok.mp hca
    cases hp
    exact (h.alloc hc ha).half
  | allocContinuous bytes flags source =>
    obtain ⟨⟨v, s⟩, ha, hp⟩ := bind_eq_ok.mp hca
    cases hp
    exact (h.allocContinuous hc.1 hc.2 ha).half
  | map bytes paddr flags source =>
    obtain ⟨⟨v, s⟩, hm, hp⟩ := bind_eq_ok.mp hca
    cases hp
    exact (h.map hc hm).half
  | free addr bytes =>
    obtain ⟨s, hf, hp⟩ := bind_eq_ok.mp hca
    cases hp
    exact (h.freeLoop hc.1 hc.2 (List.forall_mem_nil _) hf).half

/-- **The kernel half is shared by all pagemaps** in every state of every run of careful calls after
`Mem::init`. -/
theorem shared_of_careful (hboot : BootTables k s₀) (hinit : s₀.init k = .ok s1)
    (run : Reach (step k) (Careful k) { machine := s1 } a) : Shared k a := by
  have h : KernelHalf k a.maps a.machine := run.invariant
    (P := fun a => KernelHalf k a.maps a.machine) (KernelHalf.nil (hboot.tree.init hinit))
    fun a call a' h hcar hca => step_kernelHalf h hcar hca
  exact ⟨h.shared, fun g hg v hv => rawofInternal_of_sameTable (h.shared g hg _ hv)⟩

/-! ## Runs -/

variable {first n : ℕ}

@[irreducible] def framesFrom (first n : ℕ) : List Frame := (List.range n).map fun i => BitVec.ofNat 52 (first + i)

theorem mem_framesFrom (hn : first + n ≤ 2 ^ 52) :
    f ∈ framesFrom first n ↔ first ≤ f.toNat ∧ f.toNat < first + n := by
  rw [framesFrom]
  refine ⟨fun h => ?_, fun h => ?_⟩
  · obtain ⟨i, hi, rfl⟩ := List.mem_map.mp h
    rw [List.mem_range] at hi
    rw [toNat_ofNat]
    omega
  · refine List.mem_map.mpr ⟨f.toNat - first, List.mem_range.mpr (by omega), ?_⟩
    rw [show first + (f.toNat - first) = f.toNat by omega, ofNat_toNat, setWidth_eq]

theorem nodup_framesFrom (hn : first + n ≤ 2 ^ 52) : (framesFrom first n).Nodup := by
  rw [framesFrom]
  refine List.Nodup.map_on (fun i hi j hj he => ?_) List.nodup_range
  rw [List.mem_range] at hi hj
  rw [← toNat_inj, toNat_ofNat, toNat_ofNat] at he
  omega

/-- A machine as the boot code leaves it, with `pml4` at the frame 256, the first two mebibytes in use
and four thousand frames left. -/
def bootMachine : Machine where
  mem f := bootEntry 0x100 (f - 0x100).toNat
  supply := framesFrom 0x200 4000
  outstanding := framesFrom 0 0x200

theorem bootTables_bootMachine : BootTables 0x100 bootMachine where
  tables n hn := by
    funext i
    change bootEntry 0x100 (0x100 + BitVec.ofNat 52 n - 0x100).toNat i = _
    congr 1
    rw [toNat_sub, toNat_add, toNat_ofNat]
    have : (0x100 : Frame).toNat = 256 := rfl
    omega
  used n hn := by
    refine (mem_framesFrom (by decide)).mpr ?_
    rw [toNat_add, toNat_ofNat]
    have : (0x100 : Frame).toNat = 256 := rfl
    omega

theorem stocked_bootMachine : Stocked 4000 bootMachine where
  enough := by
    change 4000 ≤ (framesFrom 0x200 4000).length
    rw [framesFrom, List.length_map, List.length_range]
  nodup := nodup_framesFrom (by decide)
  unused f hf ho := by
    have h1 := ((mem_framesFrom (by decide)).mp hf).1
    have h2 := ((mem_framesFrom (by decide)).mp ho).2
    omega

theorem init_bootMachine : ∃ s1, bootMachine.init 0x100 = .ok s1 ∧ Booted 0x100 s1 ∧ Stocked 600 s1 :=
  init_booted bootTables_bootMachine.tree (stocked_bootMachine.mono (by decide))
    ((mem_framesFrom (by decide)).mpr (by decide)) (by decide) (by decide)

theorem create_returns (ht : Stocked (n + 1) a.machine) :
    ∃ root s', step k a .create = .ok { machine := s', maps := a.maps ++ [root] } ∧
      a.machine.create k = .ok (root, s') ∧ Stocked n s' := by
  obtain ⟨root, s, ha, hs⟩ := ht.physAlloc
  refine ⟨root, s.fill root fun i => if i < 256#9 then 0 else s.mem k i, ?_, ?_, hs.congr rfl rfl⟩
  · simp only [step, create, ha, ok_bind, pure_eq_ok]
  · simp only [create, ha, ok_bind, pure_eq_ok]

theorem alloc_returns (ht : Stocked (n + 4) a.machine) (hv : v ≠ 0) :
    ∃ g s s', a.machine.physAlloc = .ok (g, s) ∧
      (s.fill g fun _ => 0).assign k v (frameAddr g) (allocFlags (kernelPagemap k) 0x2002) = .ok s' ∧
      step k a (.alloc 4096 0x2002 v) = .ok { a with machine := s' } := by
  obtain ⟨g, s, ha, hs⟩ := ht.physAlloc
  have hf : Stocked (n + 3) (s.fill g fun _ => 0) := hs.congr rfl rfl
  obtain ⟨s', has, -⟩ := hf.assign k v (frameAddr g) (allocFlags (kernelPagemap k) 0x2002)
  refine ⟨g, s, s', ha, has, ?_⟩
  have hl : allocLoop k (allocFlags (kernelPagemap k) 0x2002) 1 a.machine v = .ok s' := by
    simp only [allocLoop, ha, has, ok_bind]
  have hc : a.machine.alloc (kernelPagemap k) 4096 0x2002 v = .ok (v, s') := by
    rw [alloc, if_neg (by decide), allocStart, if_pos (by decide), ok_bind]
    dsimp only
    rw [if_neg hv, show ceiltopg64 4096 = 1 from rfl]
    simp only [kernelPagemap] at hl ⊢
    simp only [hl, ok_bind, pure_eq_ok]
  simp only [step, hc, ok_bind, pure_eq_ok]

theorem alloc_replaces {live : List Frame} {s s1 s2 : Machine} {map : Pagemap} {flags : BitVec 32}
    (h : KernelHalf k live s) (hr : r ∈ live) (hp : s.physAlloc = .ok (g, s1))
    (ha : (s1.fill g fun _ => 0).assign k v (frameAddr g) (allocFlags map flags) = .ok s2)
    (hv : ¬ pml4Index v < 256#9) (hn : s.mem k (pml4Index v) ≠ 0)
    (hb : s.mem k (pml4Index v) &&& pagePresent = 0) :
    frameOf (s2.mem r (pml4Index v)) ≠ frameOf (s2.mem k (pml4Index v)) := by
  obtain ⟨hg, hs1⟩ := physAlloc_eq_ok hp
  obtain ⟨h1, hpr⟩ := h.physAlloc hp
  obtain ⟨h2, hpr2⟩ := h1.half.fill_private hpr fun _ => 0
  have hk : k ≠ g := fun he => hg (he ▸ kernelTree_root h.tree)
  have hm : (s1.fill g fun _ => 0).mem k = s.mem k := by
    rw [mem_fill, Function.update_of_ne hk, hs1]
  have hs := assign_spec h2.half.tree rfl rfl
    (fun _ => by rw [frameOf_allocEntry, frameOf_frameAddr]; exact (hpr2 g hpr).1) ha
  have hf := (assign_root h2.half.tree ha).replaced (by rwa [hm])
  -- the old table is in use, the new one was not
  have hu : frameOf (s.mem k (pml4Index v)) ∈ (s1.fill g fun _ => 0).outstanding := by
    refine h2.half.tree.outstanding k rfl [pml4Index v] _ ?_
    rw [View.tableAt_slot (q := []) rfl (by decide) (fun _ => rfl), hm, if_neg hn]
  rw [hs.mem_spare rfl (h2.half.spare r hr), (h2.half.shared r hr _ hv).frame, hm]
  intro he
  exact hf (he ▸ hu)

theorem shared_of_careful_windows :
    ∃ s1 a, bootMachine.init 0x100 = .ok s1 ∧
      Reach (step 0x100) (Careful 0x100) { machine := s1 } a ∧ a.maps ≠ [] ∧ Shared 0x100 a := by
  obtain ⟨s1, hin, hbo, hst⟩ := init_bootMachine
  obtain ⟨root, s2, hcr, hro, hs2⟩ :=
    create_returns (k := 0x100) (a := { machine := s1 }) (n := 599) hst
  obtain ⟨g, s3, s4, -, -, hall⟩ := alloc_returns (k := 0x100)
    (a := { machine := s2, maps := [] ++ [root] }) (n := 595) hs2 (v := 0xFFFF800000400000#64)
    (by decide)
  have hmap : MappedRange 0x100 s2 0xFFFF800000400000#64 1 := by
    intro j hj _
    obtain rfl : j = 0 := by omega
    obtain ⟨hnew, -, hmem⟩ := create_eq_ok hro
    have hne : (0x100 : Frame) ≠ root := fun h => hnew (h ▸ kernelTree_root hbo.tree)
    rw [hmem, Function.update_of_ne hne]
    exact hbo.windows
  have hca : Careful 0x100 { machine := s2, maps := [] ++ [root] }
      (.alloc 4096 0x2002 0xFFFF800000400000#64) := fun _ => hmap
  have run : Reach (step 0x100) (Careful 0x100) { machine := s1 }
      { machine := s4, maps := [] ++ [root] } :=
    (Reach.refl.step .create trivial hcr).step _ hca hall
  exact ⟨s1, _, hin, run, List.cons_ne_nil _ _, shared_of_careful bootTables_bootMachine hin run⟩

theorem not_shared_nextSlot :
    ∃ s1 a, bootMachine.init 0x100 = .ok s1 ∧
      Reach (step 0x100) (fun _ _ => True) { machine := s1 } a ∧
      (∃ g ∈ a.maps, frameOf (a.machine.mem g 257#9) ≠ frameOf (a.machine.mem 0x100 257#9)) ∧
      ¬ Shared 0x100 a := by
  obtain ⟨s1, hin, hbo, hst⟩ := init_bootMachine
  obtain ⟨root, s2, hcr, hro, hs2⟩ :=
    create_returns (k := 0x100) (a := { machine := s1 }) (n := 599) hst
  obtain ⟨g, s3, s4, hph, has, hall⟩ := alloc_returns (k := 0x100)
    (a := { machine := s2, maps := [] ++ [root] }) (n := 595) hs2 (v := 0xFFFF808000000000#64)
    (by decide)
  have run : Reach (step 0x100) (fun _ _ => True) { machine := s1 }
      { machine := s4, maps := [] ++ [root] } :=
    (Reach.refl.step .create trivial hcr).step _ trivial hall
  have hha := (KernelHalf.nil hbo.tree).create hro
  have hmem : s2.mem 0x100 257#9 = s1.mem 0x100 257#9 :=
    congrFun (create_mem hro (kernelTree_root hbo.tree)) _
  have hsl : pml4Index 0xFFFF808000000000#64 = 257#9 := by decide
  have hdi := alloc_replaces hha (List.mem_singleton_self root) hph has (by decide)
    (by rw [hsl, hmem]; exact hbo.later) (by rw [hsl, hmem]; exact hbo.absent)
  rw [hsl] at hdi
  refine ⟨s1, _, hin, run, ⟨root, List.mem_singleton_self root, hdi⟩, fun hsh => ?_⟩
  exact hdi (hsh.tables root (List.mem_singleton_self root) 257#9 (by decide)).frame

end KernelShare

end AexKernel.Mem
