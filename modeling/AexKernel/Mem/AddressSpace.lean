import AexKernel.Library.Run
import AexKernel.Mem.Fork
import AexKernel.Mem.Teardown

/-! # The address spaces of processes

A system of user pagemaps over one machine. -/

namespace AexKernel.Mem

open Library List Copying

/-- A machine and the user pagemaps that are alive. -/
structure AddressSpaces where
  machine : Machine
  maps : List Pagemap := []

/-- A call on a pagemap. -/
inductive MapCall
  | alloc (bytes : BitVec 64) (flags : BitVec 32) (source : BitVec 64)
  | map (bytes paddr : BitVec 64) (flags : BitVec 16) (source : BitVec 64)
  | free (addr bytes : BitVec 64)
  | fork (gflags : BitVec 32)
  | destroy
  | store (addr word : BitVec 64)

/-- A step of the system. -/
inductive SpaceCall
  /-- `new Pagemap(0, 0x7FFFFFFFFFFF)`, which leaves `gflags` uninitialised. -/
  | create (gflags : BitVec 32)
  | on (i : ℕ) (call : MapCall)

namespace AddressSpaces

/-- A store to an address of a program changes the page that is mapped there. -/
def store (s : Machine) (map : Pagemap) (addr word : BitVec 64) : Machine :=
  let raw := rawofInternal s.mem map.pageRoot addr
  if addr ≤ map.vend ∧ raw ≠ 0 ∧ raw &&& pageNophys = 0 then
    s.write (frameOf raw) (addr.extractLsb' 3 9) word
  else s

/-- The system after a call on the pagemap at place `i`. -/
def onMap (k : Frame) (a : AddressSpaces) (i : ℕ) (map : Pagemap) :
    MapCall → Except Fault AddressSpaces
  | .alloc bytes flags source => do
    let (_, s) ← a.machine.alloc map bytes flags source
    return { a with machine := s }
  | .map bytes paddr flags source => do
    let (_, s) ← a.machine.map map bytes paddr flags source
    return { a with machine := s }
  | .free addr bytes => do
    let s ← a.machine.free map addr bytes
    return { a with machine := s }
  | .fork gflags => do
    let (child, s, _) ← a.machine.fork map k gflags
    return { machine := s, maps := a.maps ++ [child] }
  | .destroy => do
    let s ← (teardown a.machine.mem map).foldlM Machine.physFree a.machine
    return { machine := s, maps := a.maps.eraseIdx i }
  | .store addr word => .ok { a with machine := store a.machine map addr word }

/-- The system after a step. Calls on pagemaps that are not alive do nothing. -/
def step (k : Frame) (a : AddressSpaces) : SpaceCall → Except Fault AddressSpaces
  | .create gflags => do
    let (root, s) ← a.machine.create k
    return { machine := s
             maps := a.maps ++ [{ pageRoot := root, vstart := 0, vend := 0x7FFFFFFFFFFF, gflags }] }
  | .on i call =>
    match a.maps[i]? with
    | none => .ok a
    | some map => a.onMap k i map call

def roots (a : AddressSpaces) : Set Frame := {f | f ∈ a.maps.map Pagemap.pageRoot}

/-- The states of runs from a machine without user pagemaps. -/
def Run (k : Frame) (s : Machine) (a : AddressSpaces) : Prop :=
  Reach (step k) (fun _ _ => True) { machine := s } a

/-- The user halves form a tree, with one root for each pagemap. -/
structure Sound (k : Frame) (a : AddressSpaces) : Prop where
  trees : UserTrees k a.roots a.machine
  user : ∀ map ∈ a.maps, map.IsUser
  nodup : (a.maps.map Pagemap.pageRoot).Nodup

variable {k : Frame} {a a' : AddressSpaces} {map : Pagemap}

theorem mem_roots (h : map ∈ a.maps) : map.pageRoot ∈ a.roots :=
  mem_map.mpr ⟨map, h, rfl⟩

variable {s : Machine}

theorem Sound.machine (h : Sound k a) (hs : UserTrees k a.roots s) :
    Sound k { a with machine := s } := ⟨hs, h.user, h.nodup⟩

theorem Sound.push (h : Sound k a) (ha : map.IsUser) (hn : map.pageRoot ∉ a.roots)
    (hs : UserTrees k (insert map.pageRoot a.roots) s) :
    Sound k { machine := s, maps := a.maps ++ [map] } where
  trees := by
    have ho : roots { machine := s, maps := a.maps ++ [map] } = insert map.pageRoot a.roots := by
      ext f
      simp [roots, or_comm]
    rw [ho]
    exact hs
  user m hm := by
    rcases mem_append.mp hm with hm | hm
    · exact h.user m hm
    · rwa [mem_singleton.mp hm]
  nodup := by
    rw [map_append]
    refine nodup_append.mpr ⟨h.nodup, nodup_singleton _, ?_⟩
    rintro f hf g hg rfl
    rw [mem_singleton.mp hg] at hf
    exact hn hf

end AddressSpaces

variable {s s₀ : Machine} {k f r : Frame}

theorem UserTrees.mono {roots roots' : Set Frame} (h : UserTrees k roots s) (hs : roots' ⊆ roots)
      :
    UserTrees k roots' s where
  tree :=
    { separated := fun r hr r' hr' => h.tree.separated r (hs hr) r' (hs hr')
      outstanding := fun r hr => h.tree.outstanding r (hs hr)
      dormant := fun r hr => h.tree.dormant r (hs hr) }
  kernel f hf := by
    have hk : KernelFrame k roots s f := hf.imp_right fun ⟨r, hr, hp⟩ =>
      ⟨r, Set.insert_subset_insert hs hr, hp⟩
    exact ⟨(h.kernel f hk).1, fun r hr => (h.kernel f hk).2 r (hs hr)⟩
  level r hr r' hr' :=
    h.level r (Set.insert_subset_insert hs hr) r' (Set.insert_subset_insert hs hr')
  present r hr := h.present r (hs hr)

namespace AddressSpaces

variable {k : Frame} {a a' : AddressSpaces} {map : Pagemap}

theorem Sound.destroy (h : Sound k a) {i : ℕ} (hi : a.maps[i]? = some map)
    (hc : (teardown a.machine.mem map).foldlM Machine.physFree a.machine = .ok s) :
    Sound k { machine := s, maps := a.maps.eraseIdx i } := by
  have he := mem_of_getElem? hi
  have hs : roots { machine := s, maps := a.maps.eraseIdx i } ⊆ a.roots := fun f hf =>
    ((eraseIdx_sublist a.maps i).map _).subset hf
  have hg : map.pageRoot ∉ roots { machine := s, maps := a.maps.eraseIdx i } := by
    intro ho
    obtain ⟨m, hm, hmr⟩ := mem_map.mp ho
    obtain ⟨j, hji, hj⟩ := mem_eraseIdx_iff_getElem?.mp hm
    have hij : (a.maps.map Pagemap.pageRoot)[j]? = (a.maps.map Pagemap.pageRoot)[i]? := by
      rw [getElem?_map, getElem?_map, hi, hj, Option.map_some, Option.map_some, hmr]
    obtain ⟨ht, -⟩ := List.getElem?_eq_some_iff.mp hj
    exact hji ((getElem?_inj (by rwa [length_map]) h.nodup).mp hij)
  have hl : ∀ f ∈ teardown a.machine.mem map,
      Loose k (roots { machine := s, maps := a.maps.eraseIdx i }) a.machine f := by
    intro f hf
    obtain ⟨p, hp⟩ := h.trees.teardown_owned (h.user map he) (mem_roots he) hf
    refine ⟨fun r hr p' hp' => ?_, fun hk => ?_⟩
    · obtain ⟨rfl, -⟩ := h.trees.tree.separated r (hs hr) _ (mem_roots he) p' p f hp' hp
      exact hg hr
    have hke : KernelFrame k a.roots a.machine f := hk.imp_right fun ⟨r, hr, ha⟩ =>
      ⟨r, Set.insert_subset_insert hs hr, ha⟩
    exact (h.trees.kernel f hke).2 _ (mem_roots he) p hp
  exact ⟨((h.trees.mono hs).physFrees hl hc).1,
    fun m hm => h.user m ((eraseIdx_sublist a.maps i).subset hm),
    h.nodup.sublist ((eraseIdx_sublist a.maps i).map _)⟩

theorem Sound.store (h : Sound k a) (hm : map ∈ a.maps) (addr word : BitVec 64) :
    Sound k { a with machine := AddressSpaces.store a.machine map addr word } := by
  refine h.machine ?_
  rw [AddressSpaces.store]
  split_ifs with hs
  · obtain ⟨hl, hn, ho⟩ := hs
    have hr := mem_roots hm
    have hc := scope_of_le ((h.user map hm).vend ▸ hl)
    rw [rawofInternal_eq userView a.machine map.pageRoot hc] at hn ho ⊢
    obtain ⟨hk, ht⟩ := h.trees.page_frame hr (userView_tableAt_page hn ho)
    exact (h.trees.fill hk ht _).1
  · exact h.trees

theorem Sound.step (h : Sound k a) {call : SpaceCall} (hs : a.step k call = .ok a') :
    Sound k a' := by
  cases call with
  | create gflags =>
    obtain ⟨⟨root, s⟩, hcreate, hp⟩ := bind_eq_ok.mp hs
    cases hp
    refine h.push ⟨rfl, rfl⟩ (fun ho => ?_) (h.trees.create hcreate)
    exact (Machine.create_eq_ok hcreate).1 (h.trees.tree.outstanding root ho [] root rfl)
  | on i call =>
    rw [AddressSpaces.step] at hs
    cases hi : a.maps[i]? with
    | none =>
      rw [hi] at hs
      cases hs
      exact h
    | some map =>
      rw [hi] at hs
      have hm := mem_of_getElem? hi
      have hr := mem_roots hm
      have hu := h.user map hm
      cases call with
      | alloc bytes flags source =>
        obtain ⟨⟨v, s⟩, hc, hp⟩ := bind_eq_ok.mp hs
        cases hp
        exact h.machine (h.trees.alloc hr hc)
      | map bytes paddr flags source =>
        obtain ⟨⟨v, s⟩, hc, hp⟩ := bind_eq_ok.mp hs
        cases hp
        exact h.machine (h.trees.map hr hc)
      | free addr bytes =>
        obtain ⟨s, hc, hp⟩ := bind_eq_ok.mp hs
        cases hp
        exact h.machine (h.trees.free hu hr hc)
      | fork gflags =>
        obtain ⟨⟨child, s, walk⟩, hc, hp⟩ := bind_eq_ok.mp hs
        cases hp
        obtain ⟨hh, s₀, hcreate, hcopied, -⟩ := h.trees.fork hu hr hc
        refine h.push hh (fun ho => ?_) hcopied.trees
        exact (Machine.create_eq_ok hcreate).1 (h.trees.tree.outstanding _ ho [] _ rfl)
      | destroy =>
        obtain ⟨s, hc, hp⟩ := bind_eq_ok.mp hs
        cases hp
        exact h.destroy hi hc
      | store addr word =>
        cases hs
        exact h.store hm addr word

/-- A machine in which the kernel's tables are in use and of one level each. -/
structure KernelReady (k : Frame) (s : Machine) : Prop where
  outstanding : ∀ p f, kernelView.tableAt s k p = some f → f ∈ s.outstanding
  level : ∀ p p' f, kernelView.tableAt s k p = some f → kernelView.tableAt s k p' = some f →
    p.length = p'.length

theorem KernelReady.sound (h : KernelReady k s) : Sound k { machine := s } where
  trees :=
    { tree := ⟨fun r hr => absurd hr not_mem_nil, fun r hr => absurd hr not_mem_nil,
        fun r hr => absurd hr not_mem_nil⟩
      kernel := by
        intro f hf
        refine ⟨?_, fun r hr => absurd hr not_mem_nil⟩
        rcases hf with rfl | ⟨r, rfl | hr, p, -, hp⟩
        · exact h.outstanding [] f rfl
        · exact h.outstanding p f hp
        · exact absurd hr not_mem_nil
      level := by
        rintro r (rfl | hr) r' (rfl | hr') p p' f hf hf'
        · exact h.level p p' f hf hf'
        · exact absurd hr' not_mem_nil
        · exact absurd hr not_mem_nil
        · exact absurd hr not_mem_nil
      present := fun r hr => absurd hr not_mem_nil }
  user _ hm := absurd hm not_mem_nil
  nodup := nodup_nil

theorem Run.sound (hk : KernelReady k s) (run : Run k s a) : Sound k a :=
  run.invariant (P := Sound k) hk.sound fun _ _ _ h _ hs => h.step hs

/-! ## Forking -/

/-- The page at an address of the child is a copy of that of its parent. -/
structure PageForked (parent child : Pagemap) (s s' : Machine) (v : BitVec 64) : Prop where
  absent : rawofInternal s'.mem child.pageRoot v = 0 ↔ rawofInternal s.mem parent.pageRoot v = 0
  nophys : rawofInternal s.mem parent.pageRoot v &&& pageNophys ≠ 0 →
    rawofInternal s'.mem child.pageRoot v = rawofInternal s.mem parent.pageRoot v
  flags : rawofInternal s'.mem child.pageRoot v &&& 0xFFF#64 =
    rawofInternal s.mem parent.pageRoot v &&& 0xFFF#64
  frame : rawofInternal s.mem parent.pageRoot v ≠ 0 →
    rawofInternal s.mem parent.pageRoot v &&& pageNophys = 0 →
    frameOf (rawofInternal s'.mem child.pageRoot v) ∉ s.outstanding ∧
    (∀ p, userView.tableAt s' child.pageRoot p =
      some (frameOf (rawofInternal s'.mem child.pageRoot v)) → p = pagePath (pageOf v)) ∧
    s'.mem (frameOf (rawofInternal s'.mem child.pageRoot v)) =
      s.mem (frameOf (rawofInternal s.mem parent.pageRoot v))

theorem toNat_pageOf_lt {v : BitVec 64} (h : v ≤ 0x7FFFFFFFFFFF#64) : (pageOf v).toNat < 2 ^ 35 := by
  have hl : v.toNat ≤ 0x7FFFFFFFFFFF := BitVec.le_def.mp h
  rw [pageOf, BitVec.extractLsb'_toNat, Nat.shiftRight_eq_div_pow]
  omega

end AddressSpaces

section Forked

variable {k : Frame} {roots : Set Frame} {s s₀ s' : Machine} {parent child : Pagemap}
  (h : UserTrees k roots s) (hr : parent.pageRoot ∈ roots)
  (hcreate : s.create k = .ok (child.pageRoot, s₀))
  (hcopied : Copying k (insert child.pageRoot roots) parent.pageRoot child.pageRoot s₀ s' (2 ^ 35))

include h hr hcreate hcopied

theorem Copying.mem_parent {p : List Index} (hf : userView.tableAt s parent.pageRoot p = some f) :
    s'.mem f = s.mem f := by
  have ho := h.tree.outstanding _ hr p f hf
  have hro := Machine.create_eq_ok hcreate
  have hn : f ≠ child.pageRoot := by
    rintro rfl
    exact hro.1 ho
  rw [hcopied.frame f (hro.2.1 ▸ mem_cons_of_mem _ ho) hn, Machine.create_mem hcreate ho]

theorem Copying.tableAt_forked (p : List Index) :
    userView.tableAt s' parent.pageRoot p = userView.tableAt s parent.pageRoot p := by
  refine tableAt_congr fun up f _ hf i => ?_
  rw [mem_parent h hr hcreate hcopied hf]

theorem Copying.entryAt_forked (n : PageNumber) :
    userView.entryAt s' parent.pageRoot n = userView.entryAt s parent.pageRoot n := by
  refine View.entryAt_congr (tableAt_forked h hr hcreate hcopied _) fun t ht => ?_
  rw [mem_parent h hr hcreate hcopied ht]

theorem Copying.pageForked {v : BitVec 64} (hv : v ≤ 0x7FFFFFFFFFFF#64) :
    AddressSpaces.PageForked parent child s s' v := by
  have hs := scope_of_le hv
  have hc := hcopied.copied (pageOf v) (AddressSpaces.toNat_pageOf_lt hv)
  rw [h.entryAt_create hr hcreate] at hc
  have hro := Machine.create_eq_ok hcreate
  have ha := rawofInternal_eq userView s parent.pageRoot hs
  have hh := rawofInternal_eq userView s' child.pageRoot hs
  have hm : (0xFFF#64 : Entry) = ~~~memPageMask := rfl
  constructor
  · rw [ha, hh]
    refine ⟨fun hz => ?_, hc.absent⟩
    by_contra he
    by_cases hn : userView.entryAt s parent.pageRoot (pageOf v) &&& pageNophys = 0
    · exact (hc.owned he hn).1.1 hz
    · exact he (hc.nophys hn ▸ hz)
  · rw [ha, hh]
    exact hc.nophys
  · rw [ha, hh, hm]
    by_cases hz : userView.entryAt s parent.pageRoot (pageOf v) = 0
    · rw [hc.absent hz, hz]
    by_cases hn : userView.entryAt s parent.pageRoot (pageOf v) &&& pageNophys = 0
    · exact (hc.owned hz hn).2.1
    · rw [hc.nophys hn]
  rw [ha, hh]
  intro he hn
  obtain ⟨⟨hn', ho'⟩, -, hf, hco⟩ := hc.owned he hn
  have hpa := userView_tableAt_page he hn
  refine ⟨fun ho => hf (hro.2.1 ▸ mem_cons_of_mem _ ho), fun p hp => ?_, ?_⟩
  · exact hcopied.trees.tree.separated.eq_of_tableAt (.inl rfl) hp (userView_tableAt_page hn' ho')
  · rw [hco, Machine.create_mem hcreate (h.tree.outstanding _ hr _ _ hpa)]

end Forked

namespace AddressSpaces

variable {k : Frame} {a : AddressSpaces} {s : Machine}

theorem WalkFrom_congr {walk : Machine.Walk} (h : WalkFrom s₀ r 0 walk)
    (hs : ∀ p, userView.tableAt s₀ r p = userView.tableAt s r p) :
    WalkFrom s r 0 walk where
  aligned := h.aligned
  nodup := h.nodup
  mem_iff v := by rw [h.mem_iff, hs]

/-- **`fork` copies the address space.** In every state of every run, `fork` of a pagemap ends and
fails only when `Phys::alloc` does; the child is a copy of the parent, which is left as it was. -/
theorem fork_copies (hk : KernelReady k s) (run : Run k s a) {map : Pagemap} (hmap : map ∈ a.maps)
    (gflags : BitVec 32) :
    (∀ e, a.machine.fork map k gflags = .error e → e = outOfFrames) ∧
    (Stocked (515 * tablesFrom a.machine map.pageRoot 0 + 1) a.machine →
      ∃ result, a.machine.fork map k gflags = .ok result) ∧
    ∀ child s' walk, a.machine.fork map k gflags = .ok (child, s', walk) →
      (∀ v, v ≤ 0x7FFFFFFFFFFF#64 → PageForked map child a.machine s' v ∧
        rawofInternal s'.mem map.pageRoot v = rawofInternal a.machine.mem map.pageRoot v) ∧
      (∀ p f, userView.tableAt a.machine map.pageRoot p = some f → s'.mem f = a.machine.mem f) ∧
      WalkFrom a.machine map.pageRoot 0 walk := by
  have h := run.sound hk
  have hr := mem_roots hmap
  have huse := h.user map hmap
  refine ⟨fun e => h.trees.fork_error huse hr, h.trees.fork_returns huse hr, ?_⟩
  intro child s' walk hca
  obtain ⟨-, s₀, hcreate, hcopied, hwa⟩ := h.trees.fork huse hr hca
  refine ⟨fun v hv => ⟨pageForked h.trees hr hcreate hcopied hv, ?_⟩,
    fun p f hf => mem_parent h.trees hr hcreate hcopied hf,
    WalkFrom_congr hwa (h.trees.tableAt_create hr hcreate)⟩
  have hsc := scope_of_le hv
  rw [rawofInternal_eq userView s' map.pageRoot hsc,
    rawofInternal_eq userView a.machine map.pageRoot hsc,
    entryAt_forked h.trees hr hcreate hcopied]

/-- A machine whose kernel has an empty pagemap and that has a hundred frames. -/
def fresh : Machine where
  mem _ _ := 0
  supply := (List.range 100).map fun i => BitVec.ofNat 52 (i + 1)
  outstanding := [0]

theorem fresh_ready : KernelReady 0 fresh := by
  have hb : ∀ i, kernelView.child [i] (fresh.mem 0 i) = none := fun i => View.child_zero [i]
  refine ⟨fun p f hf => ?_, fun p p' f hf hf' => ?_⟩
  · rw [(tableAt_blank hb hf).2]
    exact mem_cons_self
  · rw [(tableAt_blank hb hf).1, (tableAt_blank hb hf').1]

def twoPages : List SpaceCall :=
  [.create 0, .on 0 (.alloc 8192 0x2002 0x400000), .on 0 (.store 0x401008 42)]

theorem fork_copies_twoPages :
    ∃ a ∈ execute (step 0) (fun _ _ => True) { machine := fresh } twoPages,
      ∃ map ∈ a.maps, rawofInternal a.machine.mem map.pageRoot 0x401000 ≠ 0 ∧
        ∀ child s' walk, a.machine.fork map 0 0 = .ok (child, s', walk) →
          PageForked map child a.machine s' 0x401000 := by
  refine exists_execute (P := fun a => ∃ map ∈ a.maps, rawofInternal a.machine.mem map.pageRoot
    0x401000 ≠ 0) (by decide +kernel) ?_
  rintro a ha ⟨map, hmap, hmapp⟩
  refine ⟨map, hmap, hmapp, fun child s' walk hca => ?_⟩
  have h := fork_copies fresh_ready ha hmap 0
  exact ((h.2.2 child s' walk hca).1 _ (by decide)).1

/-! ## Destroying -/

/-- The frames that a user pagemap owns. -/
def Owns (s : Machine) (map : Pagemap) (f : Frame) : Prop :=
  ∃ p, userView.tableAt s map.pageRoot p = some f

/-- The destructor passes to `Phys::free` every frame of the pagemap once, and no other. -/
def TeardownExact (s : Machine) (map : Pagemap) : Prop :=
  (teardown s.mem map).Nodup ∧ ∀ f, f ∈ teardown s.mem map ↔ Owns s map f

/-- **The destructor is exact when only the first slot is in use.** In every state of every run, the
destructor of a pagemap frees each frame that the pagemap owns exactly once and no other if and only
if the slots 1 to 255 of its root are empty. -/
theorem teardownExact_iff (hk : KernelReady k s) (run : Run k s a) {map : Pagemap}
    (hmap : map ∈ a.maps) :
    TeardownExact a.machine map ↔ ∀ i, i < 256#9 → i ≠ 0 → a.machine.mem map.pageRoot i = 0 := by
  have h := run.sound hk
  have hr := mem_roots hmap
  have huse := h.user map hmap
  rw [← h.trees.teardown_complete_iff huse hr]
  refine ⟨fun hex f => (hex.2 f).mpr, fun hall => ⟨h.trees.nodup_teardown huse hr, fun f => ?_⟩⟩
  exact ⟨h.trees.teardown_owned huse hr, hall f⟩

theorem teardownExact_iff_twoPages :
    ∃ a ∈ execute (step 0) (fun _ _ => True) { machine := fresh } twoPages,
      ∃ map ∈ a.maps, TeardownExact a.machine map := by
  refine exists_execute (P := fun a => ∃ map ∈ a.maps, ∀ i ∈ range 256, i ≠ 0 → a.machine.mem
    map.pageRoot (BitVec.ofNat 9 i) = 0) (by decide +kernel) ?_
  rintro a ha ⟨map, hmap, hze⟩
  refine ⟨map, hmap, ?_⟩
  refine (teardownExact_iff fresh_ready ha hmap).mpr fun i hi hne => ?_
  have hlt : i.toNat < 256 := BitVec.lt_def.mp hi
  have hsl := hze i.toNat (mem_range.mpr hlt) fun h => hne (BitVec.toNat_inj.mp h)
  rwa [BitVec.ofNat_toNat, BitVec.setWidth_eq] at hsl

theorem not_teardownExact_exec :
    ∃ a ∈ execute (step 0) (fun _ _ => True) { machine := fresh }
        [.create 0, .on 0 (.alloc 4096 0x1002 0)],
      ∃ map ∈ a.maps, ¬ TeardownExact a.machine map := by
  refine exists_execute (P := fun a => ∃ map ∈ a.maps, a.machine.mem map.pageRoot 255#9 ≠ 0 ∧
    frameOf (a.machine.mem map.pageRoot 255#9) ∉ teardown a.machine.mem map) (by decide +kernel) ?_
  rintro a - ⟨map, hmap, hne, hnot⟩
  have hro : userView.tableAt a.machine map.pageRoot [] = some map.pageRoot := rfl
  have hta := View.tableAt_slot (i := 255#9) hro (by simp) fun _ => rfl
  rw [if_neg hne] at hta
  exact ⟨map, hmap, fun hex => hnot ((hex.2 _).mpr ⟨_, hta⟩)⟩

end AddressSpaces

end AexKernel.Mem
