import AexKernel.Library.Refinement
import AexKernel.Mem.PageTree

/-! # A pagemap is a map from pages to entries

The abstract pagemap is a function from page numbers to raw entries, zero for pages that are absent.
-/

namespace AexKernel.Mem

open Library Machine

/-- A call on a pagemap. -/
inductive PageCall
  | assign (virt phys : BitVec 64) (flags : BitVec 16)
  | unassign (virt : BitVec 64)
  | findTable (virt : BitVec 64)
  | rawof (virt : BitVec 64)
  | paddrof (virt : BitVec 64)

/-- A call and its result. -/
def Machine.call (map : Pagemap) (s : Machine) :
    PageCall → Except Fault (Option (BitVec 64) × Machine)
  | .assign virt phys flags => do
    let s ← s.assign map.pageRoot virt phys flags
    return (none, s)
  | .unassign virt => do
    let (addr, s) ← s.unassign map virt
    return (some addr, s)
  | .findTable virt =>
    match Mem.findTable s.mem map.pageRoot virt with
    | .error _ => .ok (some 0, s)
    | .ok table => .ok (some (s.mem table (ptIndex virt)), s)
  | .rawof virt => .ok (some (rawofInternal s.mem map.pageRoot virt), s)
  | .paddrof virt => .ok (some (paddrofInternal s.mem map.pageRoot virt), s)

abbrev PageMap := PageNumber → Entry

/-- What a call does to the abstract pagemap, and its result. -/
def PageMap.call (m : PageMap) : PageCall → Option (BitVec 64) × PageMap
  | .assign virt phys flags =>
    (none, Function.update m (pageOf virt) ((phys &&& ~~~0xFFF#64) ||| flags.setWidth 64))
  | .unassign virt =>
    (some (if m (pageOf virt) &&& pageNophys ≠ 0 then 0 else m (pageOf virt) &&& ~~~0xFFF#64),
      Function.update m (pageOf virt) 0)
  | .findTable virt | .rawof virt => (some (m (pageOf virt)), m)
  | .paddrof virt =>
    (some (if m (pageOf virt) &&& ~~~0xFFF#64 = 0 then 0
      else (m (pageOf virt) &&& ~~~0xFFF#64) + (virt &&& 0xFFF#64)), m)

variable {s s' : Machine} {map : Pagemap}

theorem PageSet.update {n : PageNumber} {e : Entry}
    (h : PageSet allTables {map.pageRoot} map.pageRoot n e s s') :
    allTables.entryAt s' map.pageRoot = Function.update (allTables.entryAt s map.pageRoot) n e := by
  funext m
  rw [h.entries _ rfl, Function.update_apply]
  simp only [true_and]

theorem findTable_entry (s : Machine) (root : Frame) (v : BitVec 64) :
    ((findTable s.mem root v).toOption.map fun t => s.mem t (ptIndex v)).getD 0 =
      allTables.entryAt s root (pageOf v) := by
  rw [findTable_toOption allTables s root rfl, ptIndex_eq, View.entryAt]

theorem paddrofInternal_eq (s : Machine) (root : Frame) (v : BitVec 64) :
    paddrofInternal s.mem root v = if allTables.entryAt s root (pageOf v) &&& memPageMask = 0 then 0
      else (allTables.entryAt s root (pageOf v) &&& memPageMask) + (v &&& 0xFFF#64) := by
  rw [← rawofInternal_eq allTables s root rfl, rawofInternal, paddrofInternal]
  cases findTable s.mem root (v &&& memPageMask) with
  | error skip => exact (if_pos BitVec.zero_and).symm
  | ok table => rfl

theorem Machine.call_refines (ht : Tree allTables s {map.pageRoot}) {call : PageCall}
    {result : Option (BitVec 64)} (h : s.call map call = .ok (result, s')) :
    Tree allTables s' {map.pageRoot} ∧
      PageMap.call (allTables.entryAt s map.pageRoot) call =
        (result, allTables.entryAt s' map.pageRoot) := by
  cases call with
  | assign virt phys flags =>
    obtain ⟨s1, has, hp⟩ := bind_eq_ok.mp h
    cases hp
    have hs := assign_spec ht rfl rfl (fun h => nomatch h) has
    exact ⟨hs.tree, by rw [hs.update]; rfl⟩
  | unassign virt =>
    obtain ⟨⟨addr, s1⟩, hu, hp⟩ := bind_eq_ok.mp h
    cases hp
    obtain ⟨hs, ha⟩ := unassign_spec ht rfl rfl hu
    exact ⟨hs.tree, by rw [hs.update, ha]; rfl⟩
  | findTable virt =>
    have he := findTable_entry s map.pageRoot virt
    rw [call] at h
    cases hf : findTable s.mem map.pageRoot virt with
    | error skip =>
      rw [hf] at h he
      cases h
      exact ⟨ht, by rw [PageMap.call, ← he]; rfl⟩
    | ok table =>
      rw [hf] at h he
      cases h
      exact ⟨ht, by rw [PageMap.call, ← he]; rfl⟩
  | rawof virt =>
    cases h
    exact ⟨ht, by rw [PageMap.call, rawofInternal_eq allTables s _ rfl]⟩
  | paddrof virt =>
    cases h
    exact ⟨ht, by rw [PageMap.call, paddrofInternal_eq, memPageMask]⟩

theorem Stocked.call {n : ℕ} (h : Stocked (n + 3) s) {call : PageCall}
    (hr : ∀ v, call = .unassign v → map.vstart ≤ v ∧ v ≤ map.vend) :
    ∃ result s', s.call map call = .ok (result, s') ∧ Stocked n s' := by
  cases call with
  | assign virt phys flags =>
    obtain ⟨s1, ha, hs1⟩ := h.assign map.pageRoot virt phys flags
    exact ⟨none, s1, by simp only [Machine.call, ha, ok_bind, pure_eq_ok], hs1⟩
  | unassign virt =>
    obtain ⟨addr, s1, hu, hs1⟩ := h.unassign (hr virt rfl).1 (hr virt rfl).2
    exact ⟨some addr, s1, by simp only [Machine.call, hu, ok_bind, pure_eq_ok], hs1⟩
  | findTable virt =>
    rw [Machine.call]
    cases findTable s.mem map.pageRoot virt with
    | error skip => exact ⟨_, s, rfl, h.mono (Nat.le_add_right n 3)⟩
    | ok table => exact ⟨_, s, rfl, h.mono (Nat.le_add_right n 3)⟩
  | rawof virt => exact ⟨_, s, rfl, h.mono (Nat.le_add_right n 3)⟩
  | paddrof virt => exact ⟨_, s, rfl, h.mono (Nat.le_add_right n 3)⟩

/-! ## Where runs start -/

theorem Tree.blank {view : View} {root : Frame} (hr : root ∈ s.outstanding)
    (hz : ∀ i, s.mem root i = 0) : Tree view s {root} := by
  have hb : ∀ i, view.child [i] (s.mem root i) = none := fun i => by
    rw [hz, View.child_zero]
  refine ⟨?_, ?_, ?_⟩
  · rintro _ rfl _ rfl p p' f hp hp'
    exact ⟨rfl, (tableAt_blank hb hp).1.trans (tableAt_blank hb hp').1.symm⟩
  · rintro _ rfl p f hf
    exact (tableAt_blank hb hf).2 ▸ hr
  rintro _ rfl q t hq - i - hn
  rw [(tableAt_blank hb hq).2, hz] at hn
  exact absurd rfl hn

/-! ## Sequences of calls -/

/-- **A pagemap is a map from pages to entries**: where its tables form a tree, every sequence of
calls is answered as the abstract pagemap answers it. -/
theorem Machine.serve_refines_pageMap (htree : Tree allTables s {map.pageRoot})
    (calls : List PageCall) :
    (∀ results s', serve (Machine.call map) s calls = .ok (results, s') →
      answer PageMap.call (allTables.entryAt s map.pageRoot) calls =
          (results, allTables.entryAt s' map.pageRoot) ∧
        Separated allTables.child s'.mem {map.pageRoot}) ∧
    (Stocked (3 * calls.length) s →
      (∀ v, .unassign v ∈ calls → map.vstart ≤ v ∧ v ≤ map.vend) →
      ∃ results s', serve (Machine.call map) s calls = .ok (results, s')) := by
  refine ⟨fun results s' h => ?_, fun hst hra => ?_⟩
  · obtain ⟨htr', han⟩ := serve_refines (call map) PageMap.call
      (fun s => Tree allTables s {map.pageRoot}) (fun s => allTables.entryAt s map.pageRoot)
      (fun _ _ _ _ ht hca => call_refines ht hca) htree h
    exact ⟨han, htr'.separated⟩
  obtain ⟨results, s', hse, -⟩ := serve_returns (n := 0) (call map) Stocked 3
    (fun n s a ha hs => hs.call fun v hv => hra v (hv ▸ ha))
    (hst.mono (by omega))
  exact ⟨results, s', hse⟩

theorem Machine.serve_refines_pageMap_blank :
    let s : Machine := { mem := fun _ _ => 0, supply := [1, 2, 3, 4, 5, 6], outstanding := [0] }
    let map : Pagemap := { pageRoot := 0, vstart := 0, vend := 0x7FFFFFFFFFFF, gflags := 0 }
    let calls : List PageCall := [.assign 0x1000 0x5000 3, .rawof 0x1000]
    ∃ results s', serve (Machine.call map) s calls = .ok (results, s') ∧
      answer PageMap.call (allTables.entryAt s map.pageRoot) calls =
          (results, allTables.entryAt s' map.pageRoot) ∧
        Separated allTables.child s'.mem {map.pageRoot} := by
  intro s map calls
  have htr : Tree allTables s {map.pageRoot} := Tree.blank List.mem_cons_self fun _ => rfl
  have h := serve_refines_pageMap htr calls
  obtain ⟨results, s', hse⟩ := h.2 ⟨by simp [s, calls], by simp [s], by simp [s]⟩ (by simp [calls])
  exact ⟨results, s', hse, h.1 results s' hse⟩

end AexKernel.Mem
