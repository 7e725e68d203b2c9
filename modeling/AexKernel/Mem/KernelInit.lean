import AexKernel.Mem.KernelHalf

/-! # Initialising the kernel's pagemap

The tables that `boot/paging.asm` leaves are a tree, and `Mem::init` keeps it. -/

namespace AexKernel.Mem

open Library Machine List Function BitVec View

variable {k : Frame} {s s' : Machine}

/-! ## First levels -/

variable {i : Index}

theorem Machine.createFirstLevel_cases (hk : k ∈ s.outstanding)
    (h : s.createFirstLevel k i = .ok s') :
    (s.mem k i ≠ 0 ∧ s' = s) ∨ ∃ g, s.mem k i = 0 ∧ g ∉ s.outstanding ∧
      s'.mem = writeSlot (update s.mem g fun _ => 0) k i (frameAddr g) ∧
      s'.outstanding = g :: s.outstanding := by
  rw [createFirstLevel] at h
  split_ifs at h with hs
  · exact .inl ⟨hs, (Except.ok.inj h).symm⟩
  obtain ⟨⟨g, s1⟩, ha, hr⟩ := bind_eq_ok.mp h
  obtain ⟨hg, hs1⟩ := physAlloc_eq_ok ha
  have hkg : k ≠ g := fun he => hg (he ▸ hk)
  cases hr
  refine .inr ⟨g, not_not.mp hs, hg, ?_, ?_⟩
  · rw [mem_fill, mem_write, writeSlot_self, frameOf_frameAddr, update_writeSlot hkg, hs1]
  · rw [outstanding_fill, outstanding_write, hs1]

variable {g t f pml4 : Frame}

section

variable (htr : Tree kernelTree s {k})
include htr

theorem Tree.hang (hsl : s.mem k i = 0) (hg : g ∉ s.outstanding)
    (hm : s'.mem = writeSlot (update s.mem g fun _ => 0) k i (frameAddr g))
    (ho : s'.outstanding = g :: s.outstanding) : Tree kernelTree s' {k} := by
  have hk : k ≠ g := fun heq => hg (heq ▸ kernelTree_root htr)
  have hu : Unreached kernelTree.child s.mem {k} g := fun r hr p hp =>
    hg (htr.outstanding r hr p g hp)
  have hs := fun p => tableAt_update hu (fun _ => (0 : Entry)) (Set.mem_singleton k) p
  have ha : ∀ p, kernelTree.tableAt s' k p =
      if k = k ∧ p = [i] then kernelTree.child [i] (frameAddr g) else kernelTree.tableAt s k p := by
    intro p
    rw [View.tableAt, hm, View.tableAt, ← hs p]
    have hse : Separated kernelTree.child (update s.mem g fun _ => 0) {k} :=
      htr.separated.congr fun r hr p => tableAt_update hu _ hr p
    refine tableAt_writeSlot hse rfl (q := []) rfl i (frameAddr g) (fun j => ?_)
      (fun f hf j => ?_) rfl p
    · rw [hs, tableAt_cons_of_none]
      change kernelTree.child [i] (s.mem k i) = none
      rw [hsl, child_zero]
    · obtain rfl : g = f := (frameOf_frameAddr g).symm.trans (frameOf_of_child hf)
      rw [writeSlot_table_ne hk.symm, update_self, child_zero]
  have hre : ∀ p f, kernelTree.tableAt s' k p = some f →
      (p = [i] ∧ f = g) ∨ kernelTree.tableAt s k p = some f ∧ f ≠ g := by
    intro p f hf
    rw [ha p] at hf
    split_ifs at hf with hp
    · exact .inl ⟨hp.2, (frameOf_of_child hf).symm.trans (frameOf_frameAddr g)⟩
    · exact .inr ⟨hf, fun heq => hg (heq ▸ htr.outstanding k rfl p f hf)⟩
  constructor
  · intro r1 hr1 r2 hr2 p1 p2 f h1 h2
    obtain rfl := Set.mem_singleton_iff.mp hr1
    obtain rfl := Set.mem_singleton_iff.mp hr2
    refine ⟨rfl, ?_⟩
    rcases hre p1 f h1 with ⟨rfl, rfl⟩ | ⟨h1, hf⟩
    · rcases hre p2 f h2 with ⟨rfl, -⟩ | ⟨-, hf⟩
      · rfl
      · exact absurd rfl hf
    · rcases hre p2 f h2 with ⟨-, h⟩ | ⟨h2, -⟩
      · exact absurd h hf
      · exact htr.separated.eq_of_tableAt rfl h1 h2
  · intro r hr p f hf
    rw [Set.mem_singleton_iff.mp hr] at hf
    rw [ho]
    rcases hre p f hf with ⟨-, rfl⟩ | ⟨hold, -⟩
    · exact mem_cons_self
    · exact mem_cons_of_mem _ (htr.outstanding k rfl p f hold)
  intro r hr q t hq hl j hc he hn l
  rw [Set.mem_singleton_iff.mp hr] at hq
  rw [hm] at he hn ⊢
  by_cases hh : t = k ∧ j = i
  · obtain ⟨rfl, rfl⟩ := hh
    rw [writeSlot_self, frameOf_frameAddr, writeSlot_table_ne hk.symm, update_self]
  rw [writeSlot_ne hh] at he hn ⊢
  rcases hre q t hq with ⟨-, rfl⟩ | ⟨hq, ht⟩
  · rw [update_self] at he
    exact absurd rfl he
  rw [update_of_ne ht] at he hn ⊢
  have hta : frameOf (s.mem t j) ≠ k := by
    refine (kernelTree_ne htr (p := j :: q) ?_ (cons_ne_nil _ _)).symm
    rw [tableAt_slot hq hl hc, if_neg he]
  rw [writeSlot_table_ne hta]
  by_cases hw : frameOf (s.mem t j) = g
  · rw [hw, update_self]
  rw [update_of_ne hw]
  exact htr.dormant k rfl q t hq hl j hc he hn l

theorem Tree.createFirstLevel (h : s.createFirstLevel k i = .ok s') : Tree kernelTree s' {k} := by
  rcases createFirstLevel_cases (kernelTree_root htr) h with
    ⟨-, rfl⟩ | ⟨g, hs, hg, hm, ho⟩
  · exact htr
  · exact htr.hang hs hg hm ho

theorem KernelHalf.nil : KernelHalf k [] s :=
  ⟨htr, fun _ hg => absurd hg not_mem_nil, fun _ hg => absurd hg not_mem_nil⟩

end

variable {bytes p source v prev : BitVec 64}

theorem Tree.map (htr : Tree kernelTree s {k}) {flags : BitVec 16}
    (hc : s.map (kernelPagemap k) bytes p flags source = .ok (v, s')) : Tree kernelTree s' {k} :=
  ((KernelHalf.nil htr).map (fun hl => absurd rfl hl) hc).half.tree

variable {n j c first c' m : ℕ}

theorem Tree.initLoop (htr : Tree kernelTree s {k})
    (hc : Machine.initLoop (kernelPagemap k) n s prev = .ok s') : Tree kernelTree s' {k} := by
  induction n generalizing s prev with
  | zero =>
    cases hc
    exact htr
  | succ n ih =>
    obtain ⟨⟨virt, s1⟩, hm, hr⟩ := bind_eq_ok.mp hc
    have h1 := htr.map hm
    dsimp only at hr
    split_ifs at hr
    · obtain ⟨⟨vpt, s2⟩, hmap2, hl⟩ := bind_eq_ok.mp hr
      exact ih (h1.map hmap2) hl
    · exact ih h1 hr

theorem Tree.init (htr : Tree kernelTree s {k}) (hc : s.init k = .ok s') :
    Tree kernelTree s' {k} := by
  obtain ⟨s1, hl, hf⟩ := bind_eq_ok.mp hc
  rw [createFirstLevels] at hf
  exact foldlM_range_ok (fun _ s => Tree kernelTree s {k})
    (fun i _ s s' htr hp => htr.createFirstLevel hp) (htr.initLoop hl) hf

/-! ## The windows -/

/-- While `init` makes its windows. -/
structure Booting (k : Frame) (c : ℕ) (s : Machine) : Prop where
  tree : Tree kernelTree s {k}
  free : ∀ i, c ≤ i → i < 512 → FreePage kernelTree s k 0xFFFF800000000000 i
  later : s.mem k 257#9 = 0
  zero : 0 ∈ s.outstanding

theorem Stocked.searchTable (h : Stocked (n + 3) s) (root : Frame) (v : BitVec 64) :
    ∃ t s', s.searchTable root v = .ok (t, s') ∧ Stocked n s' := by
  rw [Machine.searchTable]
  split
  · exact ⟨_, _, rfl, h.mono (by omega)⟩
  · exact h.findTableEnsure root v

theorem pml4Index_window (hv : v.toNat = 0xFFFF800000000000 + 4096 * j) (hj : j < 512) :
    pml4Index v = 256#9 := by
  rw [← toNat_inj, pml4Index, extractLsb'_toNat, Nat.shiftRight_eq_div_pow, hv]
  have : (256#9).toNat = 256 := rfl
  omega

section

variable (h : Booting k c s)
include h

theorem Booting.pageSet (hc : c < 512) (hv : v.toNat = 0xFFFF800000000000 + 4096 * first)
    (hf : first ≤ c) {e : Entry} (hs : PageSet kernelTree {k} k (pageOf v) e s s')
    (hr : RootMarked k v s s') :
    Booting k (c + 1) s' where
  tree := hs.tree
  free i hi hi' := by
    rw [FreePage, hs.entries k rfl, if_neg]
    · exact h.free i (by omega) hi'
    rintro ⟨-, he⟩
    have hp : pageOf v = page (0xFFFF800000000000 / 4096 + first) := page_of_here rfl hv
    rw [hp, ← toNat_inj, toNat_ofNat, toNat_ofNat] at he
    omega
  later := by
    rw [hr.other _ (by rw [pml4Index_window hv (by omega)]; decide), h.later]
  zero := hs.outstanding h.zero

theorem Booting.searchTable (hc : s.searchTable k 0xFFFF800000000000#64 = .ok (t, s')) :
    Booting k c s' := by
  rw [Machine.searchTable] at hc
  split at hc
  · cases hc
    exact h
  have he := findTableEnsure_spec h.tree rfl rfl hc
  refine ⟨he.tree, fun i hi hi' => ?_, ?_, he.grown.outstanding h.zero⟩
  · rw [FreePage, he.grown.entries k rfl]
    exact h.free i hi hi'
  · rw [(findTableEnsure_root h.tree hc).other _ (by decide), h.later]

theorem Booting.map (hc : c < 512) (hs : Stocked (n + 6) s) (hp : p &&& 0xFFF#64 = 0) :
    ∃ v s', s.map (kernelPagemap k) 4096 p 2 0 = .ok (v, s') ∧ Booting k (c + 1) s' ∧
      Stocked n s' ∧ s'.mem k 256#9 &&& pagePresent ≠ 0 := by
  obtain ⟨t, s1, ht, hs1⟩ := hs.searchTable k 0xFFFF800000000000#64
  obtain ⟨v, first, hf, hv, hfi⟩ : ∃ v first,
      s.findContiguous (kernelPagemap k) 1 false = .ok (v, s1) ∧
        v.toNat = 0xFFFF800000000000 + 4096 * first ∧ first ≤ c := by
    refine findContiguous_spec (fun _ => rfl) (by decide) (searchStart_aligned k false) ?_
      (fun i hi hi' => h.free i hi (by omega)) h.tree rfl ht
    change 0xFFFF800000000000 + 4096 * (c + 1) ≤ 0xFFFFFFFFFFFFFFFF
    omega
  have h1 := h.searchTable ht
  obtain ⟨s2, ha, hs2⟩ := hs1.assign k v (p - (p &&& 0xFFF#64)) (mapFlags (kernelPagemap k) 2)
  have hr := assign_root h1.tree ha
  have he := assign_spec h1.tree rfl rfl
    (fun ho => absurd (of_decide_eq_true ho).2.1 (mapFlags_nophys _ _ _)) ha
  refine ⟨v + (p &&& 0xFFF#64), s2, ?_, h1.pageSet hc hv hfi he hr, hs2, ?_⟩
  · have hst : s.mapStart (kernelPagemap k) 4096 2 0 = .ok (v, s1) := hf
    have hpa : s1.mapPages (kernelPagemap k) 4096 p 2 v = .ok s2 := by
      have hm : mapAmount 4096 p = 1 := by
        rw [mapAmount, if_neg (not_not.mpr hp)]
        rfl
      rw [mapPages, if_neg (by decide), hm, mapLoop, show (kernelPagemap k).pageRoot = k from rfl,
        ha]
      rfl
    simp only [Machine.map, hst, hpa, ok_bind, pure_eq_ok]
  · have hn := hr.entered
    rwa [pml4Index_window hv (by omega)] at hn

theorem Booting.mono (hc : c ≤ c') : Booting k c' s :=
  ⟨h.tree, fun i hi hi' => h.free i (hc.trans hi) hi', h.later, h.zero⟩

end

theorem frameAddr_aligned (f : Frame) : frameAddr f &&& 0xFFF#64 = 0 := by
  rw [← toNat_inj, toNat_and, frameAddr, toNat_shiftLeft,
    show (0xFFF#64).toNat = 2 ^ 12 - 1 from rfl, Nat.and_two_pow_sub_one_eq_mod, Nat.shiftLeft_eq]
  have : (0 : Entry).toNat = 0 := rfl
  omega

theorem Booting.initLoop (h : Booting k c s) (hc : c + 2 * n ≤ 512) (hs : Stocked (m + 12 * n) s)
    (prev : BitVec 64) :
    ∃ s', Machine.initLoop (kernelPagemap k) n s prev = .ok s' ∧ Booting k 512 s' ∧ Stocked m s' ∧
      (0 < n ∨ s.mem k 256#9 &&& pagePresent ≠ 0 → s'.mem k 256#9 &&& pagePresent ≠ 0) := by
  induction n generalizing s c prev with
  | zero =>
    refine ⟨s, rfl, h.mono (by omega), hs, fun hp => ?_⟩
    exact hp.resolve_left (Nat.lt_irrefl 0)
  | succ n ih =>
    rw [show m + 12 * (n + 1) = m + 12 * n + 6 + 6 by omega] at hs
    obtain ⟨virt, s1, hm, h1, hs1, hpre1⟩ := h.map (by omega) hs (p := 0) (by decide)
    rw [initLoop, hm, ok_bind]
    dsimp only
    split_ifs
    · obtain ⟨vpt, s2, hmap2, h2, hs2, hpre2⟩ := h1.map (by omega) hs1 (frameAddr_aligned _)
      rw [hmap2, ok_bind]
      obtain ⟨s3, hl, h3, hs3, hpre3⟩ := ih h2 (by omega) hs2 vpt
      exact ⟨s3, hl, h3, hs3, fun _ => hpre3 (.inr hpre2)⟩
    · obtain ⟨s3, hl, h3, hs3, hpre3⟩ := ih h1 (by omega) (hs1.mono (by omega)) prev
      exact ⟨s3, hl, h3, hs3, fun _ => hpre3 (.inr hpre1)⟩

/-! ## What `init` leaves -/

theorem Stocked.createFirstLevel (h : Stocked (n + 1) s) (i : Index) :
    ∃ s', s.createFirstLevel k i = .ok s' ∧ Stocked n s' := by
  rw [Machine.createFirstLevel]
  split_ifs
  · exact ⟨s, rfl, h.mono n.le_succ⟩
  obtain ⟨g, s1, ha, hs1⟩ := h.physAlloc
  rw [ha, ok_bind]
  exact ⟨_, rfl, hs1.congr rfl rfl⟩

/-- After `init`: the slot of the windows is present, and the next one refers to a table but is
not. -/
structure Booted (k : Frame) (s : Machine) : Prop where
  tree : Tree kernelTree s {k}
  windows : s.mem k 256#9 &&& pagePresent ≠ 0
  later : s.mem k 257#9 ≠ 0
  absent : s.mem k 257#9 &&& pagePresent = 0

/-- How far `create_first_levels` has come. -/
structure FirstLevels (k : Frame) (n : ℕ) (s : Machine) : Prop where
  tree : Tree kernelTree s {k}
  windows : s.mem k 256#9 &&& pagePresent ≠ 0
  zero : 0 ∈ s.outstanding
  before : n ≤ 1 → s.mem k 257#9 = 0
  after : 1 < n → s.mem k 257#9 ≠ 0 ∧ s.mem k 257#9 &&& pagePresent = 0

theorem frameAddr_ne_zero (hf : f ≠ 0) : frameAddr f ≠ 0 := fun h =>
  hf ((frameOf_frameAddr f).symm.trans (by rw [h]; rfl))

theorem frameAddr_absent (f : Frame) : frameAddr f &&& pagePresent = 0 := by
  have h := frameAddr_aligned f
  rw [show pagePresent = 0xFFF#64 &&& pagePresent from rfl, ← BitVec.and_assoc, h]
  exact zero_and

theorem FirstLevels.pass (hn : n < 256) (h : FirstLevels k n s)
    (hc : s.createFirstLevel k (BitVec.ofNat 9 (256 + n)) = .ok s') :
    FirstLevels k (n + 1) s' := by
  have hs : ∀ m < 512, BitVec.ofNat 9 (256 + n) = BitVec.ofNat 9 m → 256 + n = m := by
    intro m hm he
    rw [← toNat_inj, toNat_ofNat, toNat_ofNat] at he
    omega
  rcases createFirstLevel_cases (kernelTree_root h.tree) hc with
    ⟨hne, rfl⟩ | ⟨g, hz, hg, hmem, ho⟩
  · refine ⟨h.tree, h.windows, h.zero, fun hl => h.before (by omega), fun hlt => ?_⟩
    rcases Nat.lt_or_ge 1 n with ha | hl
    · exact h.after ha
    obtain rfl : n = 1 := by omega
    exact absurd (h.before le_rfl) hne
  have hk : k ≠ g := fun he => hg (he ▸ kernelTree_root h.tree)
  have hg0 : g ≠ 0 := fun he => hg (he ▸ h.zero)
  have ht : ∀ m < 512, 256 + n ≠ m → s'.mem k (BitVec.ofNat 9 m) = s.mem k (BitVec.ofNat 9 m) := by
    intro m hm hne
    rw [hmem, writeSlot_ne fun he => hne (hs m hm he.2.symm), update_of_ne hk]
  refine ⟨h.tree.hang hz hg hmem ho, ?_, ho ▸ mem_cons_of_mem _ h.zero, fun hl => ?_,
    fun hlt => ?_⟩
  · by_cases hn0 : n = 0
    · subst hn0
      exact absurd (by rw [hz]; rfl) h.windows
    · rw [ht 256 (by decide) (by omega)]
      exact h.windows
  · rw [ht 257 (by decide) (by omega)]
    exact h.before (by omega)
  rcases Nat.lt_or_ge 1 n with ha | hl
  · rw [ht 257 (by decide) (by omega)]
    exact h.after ha
  obtain rfl : n = 1 := by omega
  rw [hmem, writeSlot_self]
  exact ⟨frameAddr_ne_zero hg0, frameAddr_absent g⟩

/-- **`Mem::init`** returns when there are frames enough. -/
theorem Machine.init_booted (htr : Tree kernelTree s {k}) (hst : Stocked (n + 3328) s)
    (hz : 0 ∈ s.outstanding) (he : s.mem k 256#9 = 0) (ha : s.mem k 257#9 = 0) :
    ∃ s', s.init k = .ok s' ∧ Booted k s' ∧ Stocked n s' := by
  have hb : Booting k 0 s := by
    refine ⟨htr, fun i _ hi => ?_, ha, hz⟩
    have ht : kernelTree.tableAt s k (tablePath (page (0xFFFF800000000000 / 4096 + i))) =
        none := by
      rw [tablePath, rootSlot_page (M := 0xFFFF800000000000 / 4096) (by omega)]
      refine tableAt_cons_of_none (tableAt_cons_of_none ?_)
      change kernelTree.child [256#9] (s.mem k 256#9) = none
      rw [he, child_zero]
    rw [FreePage, entryAt, ht]
    rfl
  obtain ⟨s1, ho, h1, hs1, hp⟩ := hb.initLoop (n := 256) (m := n + 256) (by decide)
    (by rwa [show n + 256 + 12 * 256 = n + 3328 by omega]) 0
  obtain ⟨s2, hf, hs2⟩ := foldlM_returns (fun n s => Stocked n s)
    (fun n s i hs => hs.createFirstLevel (k := k) i)
    (l := (range 256).map fun i => BitVec.ofNat 9 (256 + i)) (n := n) (b := s1)
    (by rw [length_map, length_range]; exact hs1)
  have hl : FirstLevels k 256 s2 := foldlM_range_ok (FirstLevels k)
    (fun i hi s s' h hc => h.pass hi hc)
    ⟨h1.tree, hp (.inl (by decide)), h1.zero, fun _ => h1.later,
      fun h => absurd h (by decide)⟩ hf
  refine ⟨s2, ?_, ⟨hl.tree, hl.windows, (hl.after (by decide)).1,
    (hl.after (by decide)).2⟩, hs2⟩
  simp only [init, ho, ok_bind, createFirstLevels, hf]

/-! ## The boot tables -/

/-- What `paging_init` writes to the table with the given number, counted from `pml4`. -/
def bootEntry (pml4 : Frame) (table : ℕ) (i : Index) : Entry :=
  let entry (f : Frame) : Entry := frameAddr f ||| 3#64
  if table = 0 then
    if i = 0#9 then entry (pml4 + 1#52) else if i = 511#9 then entry (pml4 + 11#52) else 0
  else if table = 1 then if i = 0#9 then entry (pml4 + 2#52) else 0
  else if table = 2 then
    if i < 8#9 then entry (pml4 + BitVec.ofNat 52 (3 + i.toNat)) else 0
  else if table < 11 then entry (BitVec.ofNat 52 (512 * (table - 3) + i.toNat))
  else if table = 11 then if i = 510#9 then entry (pml4 + 12#52) else 0
  else if table = 12 then
    if i < 4#9 then entry (pml4 + BitVec.ofNat 52 (13 + i.toNat)) else 0
  else if table < 17 then entry (BitVec.ofNat 52 (512 * (table - 13) + i.toNat))
  else 0

/-- The state in which `paging_init` leaves memory. -/
structure BootTables (pml4 : Frame) (s : Machine) : Prop where
  tables : ∀ n < 17, s.mem (pml4 + BitVec.ofNat 52 n) = bootEntry pml4 n
  used : ∀ n < 17, pml4 + BitVec.ofNat 52 n ∈ s.outstanding

def bootTable : List Index → Option ℕ
  | [] => some 0
  | [pml4] => if pml4 = 0#9 then some 1 else if pml4 = 511#9 then some 11 else none
  | [pdp, pml4] =>
    if pml4 = 0#9 ∧ pdp = 0#9 then some 2
    else if pml4 = 511#9 ∧ pdp = 510#9 then some 12 else none
  | [pd, pdp, pml4] =>
    if pml4 = 0#9 ∧ pdp = 0#9 ∧ pd < 8#9 then some (3 + pd.toNat)
    else if pml4 = 511#9 ∧ pdp = 510#9 ∧ pd < 4#9 then some (13 + pd.toNat) else none
  | _ => none

def bootTablePath (n : ℕ) : List Index :=
  if n = 0 then [] else if n = 1 then [0#9] else if n = 2 then [0#9, 0#9]
  else if n < 11 then [BitVec.ofNat 9 (n - 3), 0#9, 0#9]
  else if n = 11 then [511#9] else if n = 12 then [510#9, 511#9]
  else [BitVec.ofNat 9 (n - 13), 510#9, 511#9]

theorem bootTable_eq_some {p : List Index} (h : bootTable p = some n) :
    n < 17 ∧ p = bootTablePath n := by
  match p with
  | [] =>
    cases h
    exact ⟨by decide, rfl⟩
  | [pml4] =>
    rw [bootTable] at h
    split_ifs at h with h₀ h1
    · cases h
      exact ⟨by decide, by rw [h₀]; rfl⟩
    · cases h
      exact ⟨by decide, by rw [h1]; rfl⟩
  | [pdp, pml4] =>
    rw [bootTable] at h
    split_ifs at h with h₀ h1
    · cases h
      exact ⟨by decide, by rw [h₀.1, h₀.2]; rfl⟩
    · cases h
      exact ⟨by decide, by rw [h1.1, h1.2]; rfl⟩
  | [pd, pdp, pml4] =>
    rw [bootTable] at h
    split_ifs at h with h₀ h1
    · cases h
      obtain ⟨rfl, rfl, hl⟩ := h₀
      have hp : pd.toNat < 8 := lt_def.mp hl
      refine ⟨by omega, ?_⟩
      rw [bootTablePath, if_neg (by omega), if_neg (by omega), if_neg (by omega),
        if_pos (by omega), Nat.add_sub_cancel_left, ofNat_toNat, setWidth_eq]
    cases h
    obtain ⟨rfl, rfl, hl⟩ := h1
    have hp : pd.toNat < 4 := lt_def.mp hl
    refine ⟨by omega, ?_⟩
    rw [bootTablePath, if_neg (by omega), if_neg (by omega), if_neg (by omega),
      if_neg (by omega), if_neg (by omega), if_neg (by omega), Nat.add_sub_cancel_left,
      ofNat_toNat, setWidth_eq]
  | _ :: _ :: _ :: _ :: _ => cases h

theorem frameOf_bootEntry (f : Frame) : frameOf (frameAddr f ||| 3#64) = f := by
  rw [frameOf_or, frameOf_frameAddr]
  exact or_zero

theorem bootEntry_present (f : Frame) : (frameAddr f ||| 3#64) &&& pagePresent ≠ 0 :=
  ne_zero_of_getLsbD (i := 0) (by simp) rfl

theorem bootTable_cons {up : List Index} (h : bootTable up = some n)
    (hc : kernelTree.child (i :: up) (bootEntry pml4 n i) = some f) :
    ∃ m, bootTable (i :: up) = some m ∧ f = pml4 + BitVec.ofNat 52 m := by
  have hf := frameOf_of_child hc
  have hn : bootEntry pml4 n i ≠ 0 := by
    intro hz
    rw [hz, child_zero] at hc
    cases hc
  match up with
  | [] =>
    cases h
    rw [bootEntry, if_pos rfl] at hf hn
    rw [bootTable]
    split_ifs at hf hn ⊢
    · exact ⟨1, rfl, by rw [← hf, frameOf_bootEntry]⟩
    · exact ⟨11, rfl, by rw [← hf, frameOf_bootEntry]⟩
    · exact absurd rfl hn
  | [x] =>
    rw [bootTable] at h
    split_ifs at h with h₀ h1
    · cases h
      rw [bootEntry, if_neg (by decide), if_pos rfl] at hf hn
      split_ifs at hf hn with hi
      · exact ⟨2, if_pos ⟨h₀, hi⟩, by rw [← hf, frameOf_bootEntry]⟩
      · exact absurd rfl hn
    cases h
    rw [bootEntry, if_neg (by decide), if_neg (by decide), if_neg (by decide),
      if_neg (by decide), if_pos rfl] at hf hn
    split_ifs at hf hn with hi
    · refine ⟨12, ?_, by rw [← hf, frameOf_bootEntry]⟩
      rw [bootTable, if_neg fun h => h₀ h.1, if_pos ⟨h1, hi⟩]
    · exact absurd rfl hn
  | [y, x] =>
    rw [bootTable] at h
    split_ifs at h with h₀ h1
    · cases h
      rw [bootEntry, if_neg (by decide), if_neg (by decide), if_pos rfl] at hf hn
      split_ifs at hf hn with hi
      · exact ⟨_, if_pos ⟨h₀.1, h₀.2, hi⟩, by rw [← hf, frameOf_bootEntry]⟩
      · exact absurd rfl hn
    cases h
    rw [bootEntry, if_neg (by decide), if_neg (by decide), if_neg (by decide),
      if_neg (by decide), if_neg (by decide), if_pos rfl] at hf hn
    split_ifs at hf hn with hi
    · refine ⟨13 + i.toNat, ?_, by rw [← hf, frameOf_bootEntry]⟩
      rw [bootTable, if_neg fun h => h₀ ⟨h.1, h.2.1⟩, if_pos ⟨h1.1, h1.2, hi⟩]
    · exact absurd rfl hn
  | [z, y, x] =>
    -- the pages of the boot code own nothing
    have hb : bootPath [i, z, y, x] = true := by
      rw [bootTable] at h
      split_ifs at h with h₀ h1
      · exact decide_eq_true (.inl h₀)
      · exact decide_eq_true (.inr h1)
    have ho := (Option.ite_none_right_eq_some.mp hc).1
    exact absurd hb (of_decide_eq_true ho).2.2
  | _ :: _ :: _ :: _ :: _ => cases h

theorem BootTables.tableAt (hb : BootTables k s) {p : List Index}
    (h : kernelTree.tableAt s k p = some f) :
    ∃ n, bootTable p = some n ∧ f = k + BitVec.ofNat 52 n := by
  induction p generalizing f with
  | nil =>
    cases h
    exact ⟨0, rfl, (add_zero _).symm⟩
  | cons i up ih =>
    obtain ⟨t, ht, hc⟩ := exists_of_tableAt_cons h
    obtain ⟨n, hn, rfl⟩ := ih ht
    rw [hb.tables n (bootTable_eq_some hn).1] at hc
    exact bootTable_cons hn hc

theorem bootEntry_present_of_ne (hn : bootEntry pml4 n i ≠ 0) :
    bootEntry pml4 n i &&& pagePresent ≠ 0 := by
  rw [bootEntry] at hn ⊢
  split_ifs at hn ⊢
  all_goals first | exact bootEntry_present _ | exact absurd rfl hn

theorem BootTables.tree (hb : BootTables k s) : Tree kernelTree s {k} := by
  constructor
  · intro r hr r' hr' p p' f hp hp'
    obtain rfl := Set.mem_singleton_iff.mp hr
    obtain rfl := Set.mem_singleton_iff.mp hr'
    obtain ⟨n, hn, rfl⟩ := hb.tableAt hp
    obtain ⟨n', hn', heq⟩ := hb.tableAt hp'
    obtain ⟨ht, ha⟩ := bootTable_eq_some hn
    obtain ⟨hl', ha'⟩ := bootTable_eq_some hn'
    have hnn : n = n' := by
      have := congrArg BitVec.toNat (add_left_cancel heq)
      rw [toNat_ofNat, toNat_ofNat] at this
      omega
    exact ⟨rfl, by rw [ha, ha', hnn]⟩
  · intro r hr p f hf
    rw [Set.mem_singleton_iff.mp hr] at hf
    obtain ⟨n, hn, rfl⟩ := hb.tableAt hf
    exact hb.used n (bootTable_eq_some hn).1
  · intro r hr q t hq hl i hs he ho
    rw [Set.mem_singleton_iff.mp hr] at hq
    obtain ⟨n, hn, rfl⟩ := hb.tableAt hq
    rw [hb.tables n (bootTable_eq_some hn).1] at he ho
    exact absurd ho (bootEntry_present_of_ne he)

end AexKernel.Mem
