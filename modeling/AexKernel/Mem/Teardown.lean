import AexKernel.Mem.UserCalls

/-! # Destroying an address space

`Pagemap::~Pagemap` frees what its loops find below the slots of the root that it visits. -/

namespace AexKernel.Mem

open Library List View

variable {k : Frame} {roots : Set Frame} {s : Machine} {r : Frame}

theorem mem_indices (i : Index) : i ∈ indices :=
  mem_map.mpr ⟨i.toNat, mem_range.mpr i.isLt, by rw [BitVec.ofNat_toNat, BitVec.setWidth_eq]⟩

theorem nodup_indices : indices.Nodup := by
  refine (nodup_map_iff_inj_on nodup_range).mpr fun a ha b hb hab => ?_
  have := congrArg BitVec.toNat hab
  rw [BitVec.toNat_ofNat, BitVec.toNat_ofNat] at this
  have ha := mem_range.mp ha
  have hb := mem_range.mp hb
  omega

theorem exists_pagePath (i a b c : Index) : ∃ n, pagePath n = [i, a, b, c] := by
  obtain ⟨N, hN⟩ : ∃ N, N = c.toNat * 2 ^ 27 + b.toNat * 2 ^ 18 + a.toNat * 2 ^ 9 + i.toNat :=
    ⟨_, rfl⟩
  refine ⟨BitVec.ofNat 36 N, ?_⟩
  simp only [pagePath, tablePath, rootSlot, pageSlot, cons.injEq, and_true, ← BitVec.toNat_inj,
    BitVec.extractLsb'_toNat, Nat.shiftRight_eq_div_pow, BitVec.toNat_ofNat]
  omega

variable {t f : Frame}

variable {a b c i j : Index}

theorem UserTrees.page_freed_iff (h : UserTrees k roots s) (hr : r ∈ roots)
    (hq : userView.tableAt s r [a, b, c] = some t) (i : Index) (f : Frame) :
    ((if s.mem t i = 0 ∨ s.mem t i = arbitraryAddr ∨ s.mem t i &&& pageNophys ≠ 0 then none
      else some (frameOf (s.mem t i))) = some f) ↔
      userView.tableAt s r [i, a, b, c] = some f := by
  obtain ⟨n, hn⟩ := exists_pagePath i a b c
  obtain ⟨hs, ha⟩ := cons.inj hn
  have he : userView.entryAt s r n = s.mem t i := by
    rw [entryAt, ha, hq, hs]
    rfl
  have hpa := tableAt_pagePath userView s r n
  rw [he, hn] at hpa
  rw [hpa]
  by_cases ho : userView.owned [i, a, b, c] (s.mem t i)
  · -- an entry that owns its frame is present, and so is not the arbitrary address
    have hp := h.present r hr n (by rw [he]; exact ho)
    rw [he] at hp
    have hne : s.mem t i ≠ arbitraryAddr := fun heq => hp (heq ▸ rfl)
    obtain ⟨hz, hno⟩ := of_decide_eq_true ho
    rw [if_pos ho, if_neg]
    rintro (h | h | h)
    · exact hz h
    · exact hne h
    · exact h hno
  · rw [if_neg ho, if_pos]
    by_contra ht
    push Not at ht
    exact ho (decide_eq_true ⟨ht.1, ht.2.2⟩)

variable {q p p' : List Index}

theorem mem_teardown_slot (level : ℕ) (hq : userView.tableAt s r q = some t) (hl : q.length < 3)
    (hs : q = [] → userView.scope i)
    (hb : ∀ t', userView.tableAt s r (i :: q) = some t' → (f ∈ teardownTable s.mem level t' ↔ ∃ p,
      p ≠ [] ∧ userView.tableAt s r (p ++ i :: q) = some f)) :
    (f ∈ if s.mem t i = 0 then []
      else teardownTable s.mem level (frameOf (s.mem t i)) ++ [frameOf (s.mem t i)]) ↔
      ∃ p, userView.tableAt s r (p ++ i :: q) = some f := by
  have ht := tableAt_slot hq hl hs
  split_ifs at ht ⊢ with hz
  · refine ⟨fun hf => absurd hf not_mem_nil, fun ⟨p, hf⟩ => ?_⟩
    obtain ⟨g, hg⟩ := exists_tableAt_of_append hf
    exact absurd (hg.symm.trans ht) (Option.some_ne_none g)
  rw [mem_append, mem_singleton, hb _ ht]
  constructor
  · rintro (⟨p, -, hf⟩ | rfl)
    · exact ⟨p, hf⟩
    · exact ⟨[], ht⟩
  rintro ⟨p, hf⟩
  by_cases hn : p = []
  · subst hn
    exact .inr (Option.some.inj (hf.symm.trans ht))
  · exact .inl ⟨p, hn, hf⟩

variable {level : ℕ}

theorem UserTrees.mem_teardownTable (h : UserTrees k roots s) (hr : r ∈ roots)
    (hq : userView.tableAt s r q = some t) (hl : q.length + level = 3) (ho : q ≠ []) :
    f ∈ teardownTable s.mem level t ↔ ∃ p, p ≠ [] ∧ userView.tableAt s r (p ++ q) = some f := by
  induction level generalizing q t with
  | zero =>
    match q, hl with
    | [a, b, c], _ =>
      rw [teardownTable, filterMap_map, mem_filterMap]
      constructor
      · rintro ⟨i, -, hf⟩
        exact ⟨[i], cons_ne_nil _ _, (h.page_freed_iff hr hq i f).mp hf⟩
      rintro ⟨p, hp, hf⟩
      match p, hp with
      | [i], _ => exact ⟨i, mem_indices i, (h.page_freed_iff hr hq i f).mpr hf⟩
      | i :: j :: p, _ =>
        -- pages lead nowhere
        obtain ⟨g, -, hc⟩ := exists_of_tableAt_cons hf
        rw [child_leaf (by simp)] at hc
        cases hc
  | succ level ih =>
    have hs := fun i => mem_teardown_slot level (i := i) (f := f) hq (by omega)
      (fun hn => absurd hn ho) fun t' ht' =>
        ih ht' (by rw [length_cons]; omega) (cons_ne_nil i q)
    rw [teardownTable, mem_flatMap]
    constructor
    · rintro ⟨i, -, hf⟩
      obtain ⟨p, hp⟩ := (hs i).mp hf
      exact ⟨p ++ [i], append_ne_nil_of_right_ne_nil _ (cons_ne_nil _ _), by
        rwa [append_assoc]⟩
    rintro ⟨p, hp, hf⟩
    obtain ⟨p, i, rfl⟩ := (eq_nil_or_concat p).resolve_left hp
    rw [concat_eq_append, append_assoc] at hf
    exact ⟨i, mem_indices i, (hs i).mpr ⟨p, hf⟩⟩

theorem append_cons_inj (h : p ++ i :: q = p' ++ j :: q) : p = p' ∧ i = j := by
  obtain ⟨hp, hc⟩ := append_inj' h rfl
  exact ⟨hp, (cons.inj hc).1⟩

theorem UserTrees.nodup_slot (h : UserTrees k roots s) (hr : r ∈ roots)
    (hq : userView.tableAt s r q = some t) (hl : q.length + level = 3) (ho : q ≠ [])
    (hno : (teardownTable s.mem level t).Nodup) : (teardownTable s.mem level t ++ [t]).Nodup := by
  refine nodup_append.mpr ⟨hno, nodup_singleton t, fun f hf g hg he => ?_⟩
  obtain ⟨p, hp, ha⟩ := (h.mem_teardownTable hr hq hl ho).mp hf
  rw [he, mem_singleton.mp hg] at ha
  have hn : p ++ q = [] ++ q := h.tree.separated.eq_of_tableAt hr ha hq
  exact hp (append_cancel_right hn)

theorem UserTrees.nodup_teardownTable (h : UserTrees k roots s) (hr : r ∈ roots)
    (hq : userView.tableAt s r q = some t) (hl : q.length + level = 3) (ho : q ≠ []) :
    (teardownTable s.mem level t).Nodup := by
  induction level generalizing q t with
  | zero =>
    match q, hl with
    | [a, b, c], _ =>
      rw [teardownTable, filterMap_map]
      refine nodup_indices.filterMap fun i j f hi hj => ?_
      have ha := h.tree.separated.eq_of_tableAt hr
        ((h.page_freed_iff hr hq i f).mp hi) ((h.page_freed_iff hr hq j f).mp hj)
      exact (cons.inj ha).1
  | succ level ih =>
    have hs := fun i f => mem_teardown_slot level (i := i) (f := f) hq (by omega)
      (fun hn => absurd hn ho) fun t' ht' =>
        h.mem_teardownTable hr ht' (by rw [length_cons]; omega) (cons_ne_nil i q)
    rw [teardownTable, nodup_flatMap]
    refine ⟨fun i _ => ?_, nodup_indices.imp fun {i j} hij => ?_⟩
    · have ht := tableAt_slot (i := i) hq (by omega) fun hn => absurd hn ho
      split_ifs at ht ⊢ with hz
      · exact nodup_nil
      exact h.nodup_slot hr ht (by rw [length_cons]; omega) (cons_ne_nil i q)
        (ih ht (by rw [length_cons]; omega) (cons_ne_nil i q))
    intro f hi hj
    obtain ⟨p, hp⟩ := (hs i f).mp hi
    obtain ⟨p', hp'⟩ := (hs j f).mp hj
    exact hij (append_cons_inj (h.tree.separated.eq_of_tableAt hr hp hp')).2

/-! ## The destructor -/

theorem Pagemap.IsUser.teardownSlots {map : Pagemap} (h : map.IsUser) : teardownSlots map = [0] := by
  rw [Mem.teardownSlots, h.vstart, h.vend]
  rfl

section Teardown

variable {map : Pagemap} (h : UserTrees k roots s) (hmap : map.IsUser) (hr : map.pageRoot ∈ roots)

include h hmap hr

/-- **What the destructor frees**: the root, and what it leads to through its first slot. -/
theorem UserTrees.mem_teardown :
    f ∈ teardown s.mem map ↔
      f = map.pageRoot ∨ ∃ p, userView.tableAt s map.pageRoot (p ++ [0#9]) = some f := by
  rw [teardown, hmap.teardownSlots, flatMap_singleton, mem_append, mem_singleton, or_comm]
  refine or_congr_right (mem_teardown_slot 2 (q := []) rfl (by simp) (fun _ => rfl) fun t ht => ?_)
  exact h.mem_teardownTable hr ht rfl (cons_ne_nil _ _)

theorem UserTrees.nodup_teardown : (teardown s.mem map).Nodup := by
  have ho : userView.tableAt s map.pageRoot [] = some map.pageRoot := rfl
  rw [teardown, hmap.teardownSlots, flatMap_singleton]
  have ha := tableAt_slot (i := 0#9) ho (by simp) fun _ => rfl
  refine nodup_append.mpr ⟨?_, nodup_singleton _, fun f hf g hg he => ?_⟩
  · dsimp only
    split_ifs at ha ⊢ with hz
    · exact nodup_nil
    exact h.nodup_slot hr ha rfl (cons_ne_nil _ _)
      (h.nodup_teardownTable hr ha rfl (cons_ne_nil _ _))
  obtain ⟨p, hp⟩ := (mem_teardown_slot 2 ho (by simp) (fun _ => rfl) fun t ht =>
    h.mem_teardownTable hr ht rfl (cons_ne_nil _ _)).mp hf
  rw [he, mem_singleton.mp hg] at hp
  exact append_ne_nil_of_right_ne_nil p (cons_ne_nil _ _) (h.tree.separated.eq_of_tableAt hr hp ho)

theorem UserTrees.teardown_owned (hf : f ∈ teardown s.mem map) :
    ∃ p, userView.tableAt s map.pageRoot p = some f := by
  rcases (h.mem_teardown hmap hr).mp hf with rfl | ⟨p, hp⟩
  · exact ⟨[], rfl⟩
  · exact ⟨_, hp⟩

theorem UserTrees.teardown_complete_iff :
    (∀ f, (∃ p, userView.tableAt s map.pageRoot p = some f) → f ∈ teardown s.mem map) ↔
      ∀ i, i < 256#9 → i ≠ 0 → s.mem map.pageRoot i = 0 := by
  have ho : userView.tableAt s map.pageRoot [] = some map.pageRoot := rfl
  constructor
  · intro ha i hi hn
    by_contra hz
    have ht := tableAt_slot (i := i) ho (by simp) fun _ => decide_eq_true hi
    rw [if_neg hz] at ht
    rcases (h.mem_teardown hmap hr).mp (ha _ ⟨_, ht⟩) with he | ⟨p, hp⟩
    · rw [he] at ht
      exact cons_ne_nil _ _ (h.tree.separated.eq_of_tableAt hr ht ho)
    · have hpa := h.tree.separated.eq_of_tableAt hr hp ht
      exact hn (append_cons_inj (p := []) hpa.symm).2
  rintro hz f ⟨p, hp⟩
  rw [h.mem_teardown hmap hr]
  rcases eq_nil_or_concat p with rfl | ⟨p, i, rfl⟩
  · exact .inl (Option.some.inj hp).symm
  rw [concat_eq_append] at hp
  by_cases hi : i = 0
  · subst hi
    exact .inr ⟨p, hp⟩
  -- the slots beyond the first lead nowhere
  obtain ⟨g, hg⟩ := exists_tableAt_of_append hp
  obtain ⟨hs, hn, -⟩ := of_child_table (q := []) (by simp) hg
  exact absurd (hz i (of_decide_eq_true (hs rfl)) hi) hn

end Teardown

end AexKernel.Mem
