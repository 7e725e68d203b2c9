import AexKernel.Mem.UserSpace

/-! # The methods of user pagemaps

`alloc`, `map` and `free` on a user pagemap keep `UserTrees`, whatever addresses they are given, and
so does the constructor for the roots with the new one. -/

namespace AexKernel.Mem

open Library BitVec Machine Function Option

variable {k : Frame} {roots : Set Frame} {s s' : Machine} {r : Frame}

/-! ## Flags -/

variable {w flags : BitVec 16}

theorem frameOf_flags (h : w.toNat < 4096) : frameOf (w.setWidth 64) = 0 := by
  rw [← toNat_inj, frameOf, extractLsb'_toNat, toNat_setWidth,
    Nat.shiftRight_eq_div_pow, Nat.mod_eq_of_lt (h.trans (by decide)), Nat.div_eq_of_lt h]
  rfl

variable {i n amount : ℕ}

theorem ne_zero_of_getLsbD {e mask : Entry} (he : e.getLsbD i = true) (hm : mask.getLsbD i =
      true) :
    e &&& mask ≠ 0 := by
  intro h
  have := congrArg (·.getLsbD i) h
  simp [he, hm] at this

theorem allocFlags_lt (map : Pagemap) (flags : BitVec 32) :
    (Machine.allocFlags map flags).toNat < 4096 := by
  rw [allocFlags, toNat_setWidth, toNat_and]
  exact lt_of_le_of_lt ((Nat.mod_le _ _).trans Nat.and_le_right) (by decide)

theorem allocFlags_present (map : Pagemap) (flags : BitVec 32) (a : Entry) :
    (a ||| (Machine.allocFlags map flags).setWidth 64) &&& pagePresent ≠ 0 := by
  refine ne_zero_of_getLsbD (i := 0) ?_ rfl
  simp [allocFlags]

theorem mapFlags_nophys (map : Pagemap) (flags : BitVec 16) (a : Entry) :
    (a ||| (Machine.mapFlags map flags).setWidth 64) &&& pageNophys ≠ 0 := by
  refine ne_zero_of_getLsbD (i := 9) ?_ rfl
  rw [mapFlags]
  split_ifs <;> simp

/-! ## Mapping -/

variable {v : BitVec 64} {t g f root : Frame}

theorem UserTrees.findTableEnsure (h : UserTrees k roots s) (hr : r ∈ roots)
    (hc : s.findTableEnsure r v = .ok (t, s')) : UserTrees k roots s' := by
  by_cases hv : userView.scope (rootSlot (pageOf v))
  · exact h.ensured hr (findTableEnsure_spec h.tree hr hv hc)
  · exact (h.findTableEnsure_outside hr hv hc).1

variable {p stride source : BitVec 64}

theorem UserTrees.assign (h : UserTrees k roots s) (hr : r ∈ roots)
    (he : (assigned p flags) &&& pageNophys = 0 →
      (assigned p flags) &&& pagePresent ≠ 0 ∧
      frameOf (assigned p flags) ∈ s.outstanding ∧
      Loose k roots s (frameOf (assigned p flags)))
    (hc : s.assign r v p flags = .ok s') : UserTrees k roots s' := by
  by_cases hv : userView.scope (rootSlot (pageOf v))
  · have hw : userView.owned (pagePath (pageOf v)) (assigned p flags) →
        (assigned p flags) &&& pageNophys = 0 := fun h =>
      (of_decide_eq_true h).2
    have hs := assign_spec h.tree hr hv (fun ho => ⟨(he (hw ho)).2.1, (he (hw ho)).2.2.1⟩) hc
    exact h.pageSet hr hs fun ho => ⟨(he (hw ho)).1, (he (hw ho)).2.2.2⟩
  · exact h.assign_outside hr hv hc

theorem UserTrees.fill_loose (h : UserTrees k roots s) (hg : Loose k roots s g)
    (words : Index → Entry) :
    UserTrees k roots (s.fill g words) ∧ Loose k roots (s.fill g words) g := by
  obtain ⟨hf, hs⟩ := h.fill hg.2 (fun r hr q _ => hg.1 r hr q) words
  refine ⟨hf, fun r hr p hp => hg.1 r hr p ?_, fun hk => hg.2 ((hs.kernelFrame_iff g).mp hk)⟩
  exact (tableAt_update hg.1 _ hr p).symm.trans hp

theorem UserTrees.allocLoop (hr : r ∈ roots) (map : Pagemap) (flags : BitVec 32)
    (h : UserTrees k roots s)
    (hc : Machine.allocLoop r (Machine.allocFlags map flags) n s v = .ok s') :
    UserTrees k roots s' := by
  induction n generalizing s v with
  | zero =>
    cases hc
    exact h
  | succ n ih =>
    obtain ⟨⟨g, s1⟩, ha, he⟩ := bind_eq_ok.mp hc
    obtain ⟨s2, hs, hl⟩ := bind_eq_ok.mp he
    obtain ⟨h1, ho, hlo⟩ := h.physAlloc ha
    obtain ⟨hf, hl'⟩ := h1.fill_loose hlo fun _ => 0
    have hfr : frameOf ((frameAddr g &&& memPageMask) |||
        (allocFlags map flags).setWidth 64) = g := by
      rw [frameOf_or, frameOf_flags (allocFlags_lt map flags), frameOf_and_memPageMask,
        frameOf_frameAddr]
      exact or_zero
    refine ih (hf.assign hr (fun _ => ⟨allocFlags_present map flags _, ?_⟩) hs) hl
    rw [hfr]
    exact ⟨ho, hl'⟩

theorem UserTrees.mapLoop (hr : r ∈ roots) (map : Pagemap) (flags : BitVec 16)
    (h : UserTrees k roots s)
    (hc : Machine.mapLoop r (mapFlags map flags) stride n s v p = .ok s') :
    UserTrees k roots s' := by
  induction n generalizing s v p with
  | zero =>
    cases hc
    exact h
  | succ n ih =>
    obtain ⟨s1, ha, hl⟩ := bind_eq_ok.mp hc
    exact ih (h.assign hr (fun hn => absurd hn (mapFlags_nophys map flags _)) ha) hl

theorem UserTrees.findContiguous {map : Pagemap} (hr : map.pageRoot ∈ roots)
    (h : UserTrees k roots s) {executable : Bool}
    (hc : s.findContiguous map amount executable = .ok (v, s')) : UserTrees k roots s' := by
  rw [Machine.findContiguous] at hc
  split_ifs at hc
  · cases hc
    exact h
  obtain ⟨⟨t, s1⟩, hf, he⟩ := bind_eq_ok.mp hc
  obtain ⟨start, -, hp⟩ := bind_eq_ok.mp he
  cases hp
  rw [searchTable] at hf
  split at hf
  · cases hf
    exact h
  · exact h.findTableEnsure hr hf

variable {bytes addr : BitVec 64}

theorem UserTrees.alloc {map : Pagemap} (hr : map.pageRoot ∈ roots) (h : UserTrees k roots s)
    {flags : BitVec 32} (hc : s.alloc map bytes flags source = .ok (v, s')) :
    UserTrees k roots s' := by
  rw [Machine.alloc] at hc
  split_ifs at hc
  · cases hc
    exact h
  obtain ⟨⟨start, s1⟩, hs, he⟩ := bind_eq_ok.mp hc
  have h1 : UserTrees k roots s1 := by
    rw [allocStart] at hs
    split_ifs at hs
    · cases hs
      exact h
    · exact h.findContiguous hr hs
  dsimp only at he
  split_ifs at he
  obtain ⟨s2, hl, hp⟩ := bind_eq_ok.mp he
  cases hp
  exact h1.allocLoop hr map flags hl

theorem UserTrees.map {map : Pagemap} (hr : map.pageRoot ∈ roots) (h : UserTrees k roots s)
    (hc : s.map map bytes p flags source = .ok (v, s')) : UserTrees k roots s' := by
  obtain ⟨⟨start, s1⟩, hs, he⟩ := bind_eq_ok.mp hc
  have h1 : UserTrees k roots s1 := by
    rw [mapStart] at hs
    split_ifs at hs
    · cases hs
      exact h
    · exact h.findContiguous hr hs
  obtain ⟨s2, hl, hp⟩ := bind_eq_ok.mp he
  cases hp
  rw [mapPages] at hl
  split_ifs at hl
  · exact h1.mapLoop hr map flags hl
  · exact h1.mapLoop hr map flags hl

/-! ## Unmapping -/

def Waiting (k : Frame) (roots : Set Frame) (s : Machine) (f : Frame) : Prop :=
  f ∈ s.outstanding ∧ Loose k roots s f

theorem View.tableAt_of_owned {view : View} {n : PageNumber}
    (h : view.owned (pagePath n) (view.entryAt s r n)) :
    view.tableAt s r (pagePath n) = some (frameOf (view.entryAt s r n)) := by
  rw [View.tableAt_pagePath, if_pos h]

theorem userView_tableAt_page {n : PageNumber} (hn : userView.entryAt s r n ≠ 0)
    (ho : userView.entryAt s r n &&& pageNophys = 0) :
    userView.tableAt s r (pagePath n) = some (frameOf (userView.entryAt s r n)) :=
  View.tableAt_of_owned (decide_eq_true ⟨hn, ho⟩)

section

variable (h : UserTrees k roots s)
include h

theorem UserTrees.page_frame (hr : r ∈ roots) {n : PageNumber}
    (hf : userView.tableAt s r (pagePath n) = some f) :
    ¬ KernelFrame k roots s f ∧
      ∀ r' ∈ roots, ∀ q, q.length < 4 → userView.tableAt s r' q ≠ some f := by
  refine ⟨fun hk => (h.kernel f hk).2 r hr _ hf, fun r' hr' q hq hqf => ?_⟩
  obtain ⟨-, rfl⟩ := h.tree.separated r' hr' r hr q _ f hqf hf
  simp [pagePath, tablePath] at hq

theorem UserTrees.scrub (hr : r ∈ roots) (hv : userView.scope (rootSlot (pageOf v))) :
    UserTrees k roots (s.scrub r v) ∧
      ∀ f, Waiting k roots s f → Waiting k roots (s.scrub r v) f := by
  rw [Machine.scrub]
  split_ifs with ha
  · rw [rawofInternal_eq userView s r hv] at ha ⊢
    have ho : userView.owned (pagePath (pageOf v)) (userView.entryAt s r (pageOf v)) :=
      decide_eq_true ⟨ha.1, ha.2.2⟩
    have hpa := View.tableAt_of_owned ho
    obtain ⟨hk, ht⟩ := h.page_frame hr hpa
    rw [frameOf_and_memPageMask]
    obtain ⟨hi, hs⟩ := h.fill hk ht fun _ => 0x5A#64
    refine ⟨hi, fun f hf => ⟨hf.1, fun r' hr' p hp => hf.2.1 r' hr' p ?_, fun hk' => ?_⟩⟩
    · exact (Tree.tableAt_fill ht _ hr' p).symm.trans hp
    · exact hf.2.2 ((hs.kernelFrame_iff f).mp hk')
  · exact ⟨h, fun f hf => hf⟩

theorem UserTrees.unassign {map : Pagemap} (hr : map.pageRoot ∈ roots)
    (hv : userView.scope (rootSlot (pageOf v))) (hc : s.unassign map v = .ok (addr, s')) :
    UserTrees k roots s' ∧ (∀ f, Waiting k roots s f → Waiting k roots s' f) ∧
      (addr ≠ 0 → Waiting k roots s' (frameOf addr)) := by
  obtain ⟨hs, ha⟩ := unassign_spec h.tree hr hv hc
  have hn : ∀ {p}, ¬ userView.owned p 0 := fun ho => by
    rw [userView.owned_zero] at ho
    cases ho
  have hsa := h.undisturbed_pageSet hr hs
  refine ⟨h.pageSet hr hs fun ho => absurd ho hn, fun f hf => ?_, fun hne => ?_⟩
  · have hsp := hs.spare ⟨hf.1, hf.2.1⟩ fun ho => absurd ho hn
    exact ⟨hsp.1, hsp.2, fun hk => hf.2.2 ((hsa.kernelFrame_iff f).mp hk)⟩
  split_ifs at ha with hno
  · exact absurd ha hne
  have hw : userView.owned (pagePath (pageOf v))
      (userView.entryAt s map.pageRoot (pageOf v)) := by
    refine decide_eq_true ⟨fun hz => hne ?_, not_not.mp hno⟩
    rw [ha, hz]
    exact zero_and
  have hpa := View.tableAt_of_owned hw
  rw [ha, frameOf_and_memPageMask]
  have hu := h.tree.outstanding _ hr _ _ hpa
  refine ⟨hs.outstanding hu, fun r' hr' p hp => ?_, fun hk => ?_⟩
  · rcases hs.reached r' hr' p _ hp with hold | he | ⟨ho, -⟩
    · -- the page itself was the only way to its frame, and its entry is gone
      obtain ⟨rfl, rfl⟩ := h.tree.separated r' hr' _ hr p _ _ hold hpa
      have hen : userView.entryAt s' map.pageRoot (pageOf v) = 0 := by
        rw [hs.entries _ hr, if_pos ⟨rfl, rfl⟩]
      have hg := View.tableAt_pagePath userView s' map.pageRoot (pageOf v)
      rw [hen, if_neg hn] at hg
      exact some_ne_none _ (hp.symm.trans hg)
    · exact he hu
    · exact hn ho
  · exact (h.page_frame hr hpa).1 ((hsa.kernelFrame_iff _).mp hk)

theorem UserTrees.freePhys {buff : List (BitVec 64)}
    (hb : ∀ a ∈ buff, Waiting k roots s (frameOf a)) (hc : s.freePhys buff = .ok s') :
    UserTrees k roots s' := by
  rw [Machine.freePhys, ← List.foldlM_map] at hc
  refine (h.physFrees (fun f hf => ?_) hc).1
  obtain ⟨a, ha, rfl⟩ := List.mem_map.mp hf
  exact (hb a ha).2

end

/-- A pagemap of a process: it covers the user half. -/
structure Pagemap.IsUser (map : Pagemap) : Prop where
  vstart : map.vstart = 0
  vend : map.vend = 0x7FFFFFFFFFFF#64

theorem scope_of_le (h : v ≤ 0x7FFFFFFFFFFF#64) : userView.scope (rootSlot (pageOf v)) := by
  refine decide_eq_true ?_
  rw [lt_def, rootSlot, pageOf, extractLsb'_extractLsb' _ (by omega),
    extractLsb'_toNat, Nat.shiftRight_eq_div_pow]
  have hl : v.toNat ≤ 0x7FFFFFFFFFFF := le_def.mp h
  have hs : (256#9).toNat = 256 := rfl
  omega

section

variable {map : Pagemap} (hmap : map.IsUser)
include hmap

theorem Pagemap.IsUser.scope_of_unassign (hc : s.unassign map v = .ok (addr, s')) :
    userView.scope (rootSlot (pageOf v)) := by
  rw [unassign] at hc
  split_ifs at hc with hl hg
  exact scope_of_le (hmap.vend ▸ BitVec.not_lt.mp hg)

theorem UserTrees.freeLoop (hr : map.pageRoot ∈ roots) (h : UserTrees k roots s)
    {buff : List (BitVec 64)} (hb : ∀ a ∈ buff, Waiting k roots s (frameOf a))
    (hc : Machine.freeLoop map n s v buff = .ok s') : UserTrees k roots s' := by
  induction n generalizing s v buff with
  | zero => exact h.freePhys hb hc
  | succ n ih =>
    obtain ⟨⟨addr, s1⟩, hu, he⟩ := bind_eq_ok.mp hc
    have hv := hmap.scope_of_unassign hu
    obtain ⟨h₀, hwa₀⟩ := h.scrub hr hv
    obtain ⟨h1, hwa1, hd⟩ := h₀.unassign hr hv hu
    have hold : ∀ a ∈ buff, Waiting k roots s1 (frameOf a) := fun a ha =>
      hwa1 _ (hwa₀ _ (hb a ha))
    dsimp only at he
    by_cases hz : addr = 0
    · rw [if_pos hz] at he
      exact ih h1 hold he
    have hn : ∀ a ∈ buff ++ [addr], Waiting k roots s1 (frameOf a) := by
      intro a ha
      rcases List.mem_append.mp ha with ha | ha
      · exact hold a ha
      · exact List.mem_singleton.mp ha ▸ hd hz
    rw [if_neg hz] at he
    split_ifs at he
    · obtain ⟨s2, hf, hl⟩ := bind_eq_ok.mp he
      exact ih (h1.freePhys hn hf) (List.forall_mem_nil _) hl
    · exact ih h1 hn he

theorem UserTrees.free (hr : map.pageRoot ∈ roots) (h : UserTrees k roots s)
    (hc : s.free map addr bytes = .ok s') :
    UserTrees k roots s' := h.freeLoop hmap hr (List.forall_mem_nil _) hc

end

/-! ## Creating -/

theorem kernelView_tableAt_copy (hu : ∀ i, ¬ userView.scope i → s.mem root i = s.mem k i)
    {p : List Index} (hp : p ≠ []) : kernelView.tableAt s root p = kernelView.tableAt s k p := by
  induction p with
  | nil => exact absurd rfl hp
  | cons i up ih =>
    by_cases hup : up = []
    · subst hup
      change kernelView.child [i] (s.mem root i) = kernelView.child [i] (s.mem k i)
      by_cases hi : userView.scope i
      · rw [kernelView_child_user hi, kernelView_child_user hi]
      · rw [hu i hi]
    · have hs : tableAt kernelView.child s.mem root up = tableAt kernelView.child s.mem k up :=
        ih hup
      rw [View.tableAt, View.tableAt, tableAt, tableAt, hs]

theorem UserTrees.insert (h : UserTrees k roots s) (ho : Waiting k roots s root)
    (hl : ∀ i, userView.scope i → s.mem root i = 0)
    (hu : ∀ i, ¬ userView.scope i → s.mem root i = s.mem k i) :
    UserTrees k (insert root roots) s := by
  have hb : ∀ i, userView.child [i] (s.mem root i) = none := by
    intro i
    by_cases hi : userView.scope i
    · rw [hl i hi, View.child_zero]
    · exact if_neg fun hs => hi hs.1
  -- the kernel half of the new root is that of the kernel's root
  have hk : ∀ r ∈ Insert.insert k (Insert.insert root roots), ∀ p f,
      kernelView.tableAt s r p = some f →
        (∃ r' ∈ Insert.insert k roots, kernelView.tableAt s r' p = some f) ∨ p = [] ∧ f = root := by
    rintro r (rfl | rfl | hr) p f hf
    · exact .inl ⟨r, .inl rfl, hf⟩
    · by_cases hp : p = []
      · subst hp
        exact .inr ⟨rfl, (Option.some.inj hf).symm⟩
      · exact .inl ⟨k, .inl rfl, kernelView_tableAt_copy hu hp ▸ hf⟩
    · exact .inl ⟨r, .inr hr, hf⟩
  have hfr : ∀ f, KernelFrame k (Insert.insert root roots) s f → KernelFrame k roots s f := by
    rintro f (rfl | ⟨r, hr, p, hp, hf⟩)
    · exact .inl rfl
    obtain ⟨r', hr', hf'⟩ := (hk r hr p f hf).resolve_right fun h => hp h.1
    exact .inr ⟨r', hr', p, hp, hf'⟩
  have hroot_nil : ∀ r ∈ Insert.insert k roots, ∀ p,
      kernelView.tableAt s r p = some root → p = [] := fun r hr p hp => by
    by_contra he
    exact ho.2.2 (.inr ⟨r, hr, p, he, hp⟩)
  refine ⟨⟨h.tree.separated.insert ho.2.1 hb, ?_, ?_⟩, ?_, ?_, ?_⟩
  · rintro r (rfl | hr) p f hf
    · exact (tableAt_blank hb hf).2 ▸ ho.1
    · exact h.tree.outstanding r hr p f hf
  · rintro r (rfl | hr) q t hq hlen i hc he
    · obtain ⟨rfl, rfl⟩ := tableAt_blank hb hq
      exact absurd (hl i (hc rfl)) he
    · exact h.tree.dormant r hr q t hq hlen i hc he
  · intro f hf
    have hold := h.kernel f (hfr f hf)
    refine ⟨hold.1, ?_⟩
    rintro r (rfl | hr) p hp
    · rw [(tableAt_blank hb hp).2] at hf
      exact ho.2.2 (hfr r hf)
    · exact hold.2 r hr p hp
  · intro r1 hr1 r2 hr2 p1 p2 f hf1 hf2
    rcases hk r1 hr1 p1 f hf1 with ⟨r₁', hr₁', h1⟩ | ⟨rfl, rfl⟩
    · rcases hk r2 hr2 p2 f hf2 with ⟨r₂', hr₂', h2⟩ | ⟨rfl, rfl⟩
      · exact h.level r₁' hr₁' r₂' hr₂' p1 p2 f h1 h2
      · rw [hroot_nil r₁' hr₁' p1 h1]
    · rcases hk r2 hr2 p2 f hf2 with ⟨r₂', hr₂', h2⟩ | ⟨rfl, -⟩
      · rw [hroot_nil r₂' hr₂' p2 h2]
      · rfl
  · rintro r (rfl | hr) n hn
    · have hnon : userView.tableAt s r (tablePath n) = none := by
        rw [eq_none_iff_forall_ne_some]
        intro f hf
        exact List.cons_ne_nil _ _ (tableAt_blank hb hf).1
      rw [View.entryAt, hnon, map_none, getD_none, userView.owned_zero] at hn
      cases hn
    · exact h.present r hr n hn

theorem UserTrees.create (h : UserTrees k roots s) (hc : s.create k = .ok (root, s')) :
    UserTrees k (Insert.insert root roots) s' := by
  obtain ⟨hro, ho, hm⟩ := create_eq_ok hc
  have hl := Loose.of_fresh h hro
  let s1 : Machine := { s with supply := s'.supply, outstanding := root :: s.outstanding }
  have h1 : UserTrees k roots s1 := h.outstanding rfl
    (fun r hr p f hf => List.mem_cons_of_mem _ (h.tree.outstanding r hr p f hf))
    fun f hf => List.mem_cons_of_mem _ (h.kernel f hf).1
  obtain ⟨h2, hlo2⟩ := h1.fill_loose (hl.congr rfl)
    fun i => if i < 256#9 then 0 else s.mem k i
  have hs' : s' = s1.fill root fun i => if i < 256#9 then 0 else s.mem k i := by
    rcases s' with ⟨mem', supply', outstanding'⟩
    obtain rfl := hm
    obtain rfl := ho
    rfl
  have hk : k ≠ root := fun he => hl.2 (.inl he.symm)
  rw [hs']
  refine h2.insert ⟨List.mem_cons_self, hlo2⟩ (fun i hi => ?_) fun i hi => ?_
  · rw [mem_fill, update_self, if_pos (of_decide_eq_true hi)]
  rw [mem_fill, update_self, update_of_ne hk, if_neg fun ht => hi (decide_eq_true ht)]

theorem Machine.create_blank (hc : s.create k = .ok (root, s')) (i : Index) :
    userView.child [i] (s'.mem root i) = none := by
  obtain ⟨-, -, hm⟩ := create_eq_ok hc
  rw [hm, update_self]
  split_ifs with hi
  · exact View.child_zero _
  · exact if_neg fun hs => hi (of_decide_eq_true hs.1)

theorem Machine.create_mem (hc : s.create k = .ok (root, s')) (hf : f ∈ s.outstanding) :
    s'.mem f = s.mem f := by
  obtain ⟨hr, -, hm⟩ := create_eq_ok hc
  have hn : f ≠ root := by
    rintro rfl
    exact hr hf
  rw [hm, update_of_ne hn]

end AexKernel.Mem
