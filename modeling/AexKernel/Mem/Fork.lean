import AexKernel.Mem.UserCalls

/-! # Copying an address space

`Pagemap::fork` walks over the user half of a pagemap and copies it page by page. -/

namespace AexKernel.Mem

open Library BitVec Machine Function Option View

variable {k : Frame} {roots : Set Frame} {s₀ s s' : Machine} {r c : Frame} {N : ℕ}

/-! ## The invariant -/

theorem scope_page (hN : N < 2 ^ 35) : userView.scope (rootSlot (page N)) := by
  refine decide_eq_true ?_
  rw [lt_def, rootSlot, extractLsb'_toNat, Nat.shiftRight_eq_div_pow, toNat_ofNat]
  have hs : (256#9).toNat = 256 := rfl
  omega

/-- The entry `e'` of the child is a copy of the entry `e` of its parent. -/
structure CopyOf (s₀ s : Machine) (e e' : Entry) : Prop where
  absent : e = 0 → e' = 0
  nophys : e &&& pageNophys ≠ 0 → e' = e
  owned : e ≠ 0 → e &&& pageNophys = 0 → (e' ≠ 0 ∧ e' &&& pageNophys = 0) ∧
    e' &&& ~~~memPageMask = e &&& ~~~memPageMask ∧ frameOf e' ∉ s₀.outstanding ∧
    s.mem (frameOf e') = s₀.mem (frameOf e)

/-- The pages of the pagemap at `r` below the number `N` have been copied to the one at `c`, which
has no others. -/
structure Copying (k : Frame) (roots : Set Frame) (r c : Frame) (s₀ s : Machine) (N : ℕ) : Prop where
  trees : UserTrees k roots s
  outstanding : s₀.outstanding ⊆ s.outstanding
  frame : ∀ f ∈ s₀.outstanding, f ≠ c → s.mem f = s₀.mem f
  fresh : ∀ p f, p ≠ [] → userView.tableAt s c p = some f → f ∉ s₀.outstanding
  copied : ∀ n : PageNumber, n.toNat < N →
    CopyOf s₀ s (userView.entryAt s₀ r n) (userView.entryAt s c n)
  rest : ∀ n : PageNumber, N ≤ n.toNat → userView.entryAt s c n = 0

/-- What the walk relies on: below a slot that covers more than the address is aligned to, there is a
table. -/
structure Aligned (s₀ : Machine) (r : Frame) (N : ℕ) : Prop where
  table : N % 512 = 0
  pdp : N % 2 ^ 18 ≠ 0 →
    userView.tableAt s₀ r [(page N).extractLsb' 18 9, rootSlot (page N)] ≠ none
  pml4 : N % 2 ^ 27 ≠ 0 → userView.tableAt s₀ r [rootSlot (page N)] ≠ none

variable {M n i D fuel : ℕ}

theorem Copying.mono (h : Copying k roots r c s₀ s N) (hNM : N ≤ M)
    (hz : ∀ n : PageNumber, N ≤ n.toNat → n.toNat < M → userView.entryAt s₀ r n = 0) :
    Copying k roots r c s₀ s M where
  trees := h.trees
  outstanding := h.outstanding
  frame := h.frame
  fresh := h.fresh
  copied n hn := by
    by_cases hlt : n.toNat < N
    · exact h.copied n hlt
    rw [hz n (Nat.not_lt.mp hlt) hn, h.rest n (Nat.not_lt.mp hlt)]
    exact ⟨fun _ => rfl, fun _ => rfl, fun h => absurd rfl h⟩
  rest n hn := h.rest n (hNM.trans hn)

section Parent

variable (h₀ : UserTrees k roots s₀) (hr : r ∈ roots) (hc : c ∈ roots) (hrc : r ≠ c)

include h₀ hr hc hrc

theorem Copying.tableAt_parent (h : Copying k roots r c s₀ s N) (p : List Index) :
    userView.tableAt s r p = userView.tableAt s₀ r p := by
  refine tableAt_congr fun up f _ hf i => ?_
  have hfc : f ≠ c := by
    rintro rfl
    exact hrc (h₀.tree.separated r hr f hc up [] f hf rfl).1
  rw [h.frame f (h₀.tree.outstanding r hr up f hf) hfc]

end Parent

variable {e e' flag : Entry}

theorem CopyOf.congr (h : CopyOf s₀ s e e')
    (hm : e' ≠ 0 → e' &&& pageNophys = 0 → s'.mem (frameOf e') = s.mem (frameOf e')) :
    CopyOf s₀ s' e e' where
  absent := h.absent
  nophys := h.nophys
  owned hn ho := by
    obtain ⟨⟨hn', ho'⟩, hf, hfr, hco⟩ := h.owned hn ho
    exact ⟨⟨hn', ho'⟩, hf, hfr, (hm hn' ho').trans hco⟩

variable {t g src dst root : Frame}

section

variable (h : Copying k roots r c s₀ s N)
include h

theorem Copying.ensured (hc : c ∈ roots) {q : List Index} (he : Ensured userView roots c q s t s')
      :
    Copying k roots r c s₀ s' N where
  trees := h.trees.ensured hc he
  outstanding := List.Subset.trans h.outstanding he.grown.outstanding
  frame f hf hfc := by
    rw [he.grown.frame f (h.outstanding hf) fun q _ hq => ?_, h.frame f hf hfc]
    by_cases hi : q = []
    · subst hi
      exact hfc (some.inj hq).symm
    · exact h.fresh q f hi hq hf
  fresh p f hp hf := by
    rcases he.grown.reached c hc p f hf with hold | hw
    · exact h.fresh p f hp hold
    · exact fun hf => hw (h.outstanding hf)
  copied n hn := by
    rw [he.grown.entries c hc]
    refine (h.copied n hn).congr fun hne ho => ?_
    have ha := userView_tableAt_page hne ho
    exact he.grown.frame _ (h.trees.tree.outstanding c hc _ _ ha) fun q hq =>
      (h.trees.page_frame hc ha).2 c hc q (hq.trans (by decide))
  rest n hn := by rw [he.grown.entries c hc, h.rest n hn]

theorem Copying.pageSet (hc : c ∈ roots) {n : PageNumber} (hn : n.toNat = N)
    (hs : PageSet userView roots c n e s s') (ht : UserTrees k roots s')
    (hco : CopyOf s₀ s' (userView.entryAt s₀ r n) e)
    (hfr : e ≠ 0 → e &&& pageNophys = 0 → frameOf e ∉ s₀.outstanding) :
    Copying k roots r c s₀ s' (N + 1) where
  trees := ht
  outstanding := List.Subset.trans h.outstanding hs.outstanding
  frame f hf hfc := by
    rw [hs.frame f (h.outstanding hf) fun q _ hq => ?_, h.frame f hf hfc]
    by_cases hi : q = []
    · subst hi
      exact hfc (some.inj hq).symm
    · exact h.fresh q f hi hq hf
  fresh p f hp hf := by
    rcases hs.reached c hc p f hf with hold | he | ⟨ho, rfl⟩
    · exact h.fresh p f hp hold
    · exact fun hf => he (h.outstanding hf)
    have := of_decide_eq_true ho
    exact hfr this.1 this.2
  copied m hm := by
    rw [hs.entries c hc]
    split_ifs with hmn
    · rw [hmn.2]
      exact hco
    have hlt : m.toNat < N := by
      refine lt_of_le_of_ne (Nat.le_of_lt_succ hm) fun heq => hmn ⟨rfl, ?_⟩
      exact toNat_inj.mp (heq.trans hn.symm)
    refine (h.copied m hlt).congr fun hne hno => ?_
    have ha := userView_tableAt_page hne hno
    exact hs.frame _ (h.trees.tree.outstanding c hc _ _ ha) fun q hq =>
      (h.trees.page_frame hc ha).2 c hc q hq
  rest m hm := by
    rw [hs.entries c hc, if_neg, h.rest m (Nat.le_of_succ_le hm)]
    rintro ⟨-, rfl⟩
    omega

theorem Copying.alloc_fill (hc : c ∈ roots) {s1 : Machine} (ha : s.physAlloc = .ok (g, s1))
    (words : Index → Entry) :
    Copying k roots r c s₀ (s1.fill g words) N ∧ Waiting k roots (s1.fill g words) g ∧
      g ∉ s₀.outstanding := by
  obtain ⟨hg, hs1⟩ := physAlloc_eq_ok ha
  obtain ⟨h1, ho, hl⟩ := h.trees.physAlloc ha
  obtain ⟨h2, hlo2⟩ := h1.fill_loose hl words
  have hm : (s1.fill g words).mem = update s.mem g words := by
    rw [mem_fill, hs1]
  have hgf : ∀ f ∈ s.outstanding, (s1.fill g words).mem f = s.mem f := fun f hf => by
    have hfg : f ≠ g := by
      rintro rfl
      exact hg hf
    rw [hm, update_of_ne hfg]
  have hta : ∀ p, userView.tableAt (s1.fill g words) c p = userView.tableAt s c p := by
    intro p
    refine tableAt_congr fun up f _ hf i => ?_
    rw [hgf f (h.trees.tree.outstanding c hc up f hf)]
  have he : ∀ n, userView.entryAt (s1.fill g words) c n = userView.entryAt s c n := by
    intro n
    refine entryAt_congr (hta _) fun t ht => ?_
    rw [hgf t (h.trees.tree.outstanding c hc _ t ht)]
  refine ⟨⟨h2, fun f hf => ?_, fun f hf hfc => ?_, fun p f hp hf => ?_, fun n hn => ?_,
    fun n hn => ?_⟩, ⟨ho, hlo2⟩, fun hm => hg (h.outstanding hm)⟩
  · rw [outstanding_fill, hs1]
    exact List.mem_cons_of_mem _ (h.outstanding hf)
  · rw [hgf f (h.outstanding hf), h.frame f hf hfc]
  · exact h.fresh p f hp (hta p ▸ hf)
  · rw [he]
    refine (h.copied n hn).congr fun hne hno => hgf _ ?_
    have hpa := userView_tableAt_page hne hno
    exact h.trees.tree.outstanding c hc _ _ hpa
  · rw [he, h.rest n hn]

end

/-! ## Copying a page table -/

theorem copy_flags (g : Frame) (e : Entry) :
    (frameAddr g ||| (e &&& ~~~memPageMask)) &&& ~~~memPageMask = e &&& ~~~memPageMask := by
  have ha : frameAddr g &&& ~~~memPageMask = 0 := by
    rw [show frameAddr g = frameAddr g &&& memPageMask by rw [and_memPageMask, frameOf_frameAddr],
      BitVec.and_assoc, BitVec.and_not_self]
    exact and_zero
  rw [and_or_distrib_right, ha, BitVec.and_assoc, BitVec.and_self]
  exact zero_or

theorem frameOf_copy (g : Frame) (e : Entry) :
    frameOf (frameAddr g ||| (e &&& ~~~memPageMask)) = g := by
  have hf : frameOf (e &&& ~~~memPageMask) = 0 := by
    rw [frameOf, extractLsb'_and, show extractLsb' 12 52 (~~~memPageMask) = 0#52 from rfl]
    exact and_zero
  rw [frameOf_or, hf, frameOf_frameAddr]
  exact or_zero

theorem and_flag_congr (h : e' &&& ~~~memPageMask = e &&& ~~~memPageMask)
    (hf : ~~~memPageMask &&& flag = flag) : e' &&& flag = e &&& flag := by
  rw [← hf, ← BitVec.and_assoc, h, BitVec.and_assoc]

theorem Machine.copyEntry_error {i : Index} {e : Fault}
    (h : Machine.copyEntry src dst s i = .error e) : e = outOfFrames := by
  rw [copyEntry] at h
  dsimp only at h
  split_ifs at h
  rcases bind_eq_error.mp h with ha | ⟨⟨g, s1⟩, -, hp⟩
  · exact physAlloc_error ha
  · cases hp

theorem Stocked.copyEntry (h : Stocked (n + 1) s) (src dst : Frame) (i : Index) :
    ∃ s', Machine.copyEntry src dst s i = .ok s' ∧ Stocked n s' := by
  rw [Machine.copyEntry]
  dsimp only
  split_ifs
  · exact ⟨s, rfl, h.mono n.le_succ⟩
  · exact ⟨_, rfl, (h.mono n.le_succ).congr rfl rfl⟩
  obtain ⟨g, s1, ha, hs1⟩ := h.physAlloc
  rw [ha, ok_bind]
  exact ⟨_, rfl, hs1.congr rfl rfl⟩

section Table

variable (h₀ : UserTrees k roots s₀) (hr : r ∈ roots) (hc : c ∈ roots) (hrc : r ≠ c)
  (hN : N % 512 = 0) (hlt : N < 2 ^ 35)
  (hsrc : userView.tableAt s₀ r (tablePath (page N)) = some src)

include h₀ hr hc hrc hN hlt hsrc

theorem Copying.copyEntry (hi : i < 512) (h : Copying k roots r c s₀ s (N + i))
    (hd : Ensured userView roots c (tablePath (page N)) s dst s)
    (hca : Machine.copyEntry src dst s (BitVec.ofNat 9 i) = .ok s') :
    Copying k roots r c s₀ s' (N + (i + 1)) ∧
      Ensured userView roots c (tablePath (page N)) s' dst s' := by
  have hsrcc : src ≠ c := by
    rintro rfl
    exact hrc (h₀.tree.separated r hr src hc _ [] src hsrc rfl).1
  have ht : tablePath (page (N + i)) = tablePath (page N) := tablePath_page (by omega)
  have hu : (page (N + i)).toNat = N + i := toNat_page (by omega)
  have hent : s.mem src (BitVec.ofNat 9 i) = userView.entryAt s₀ r (page (N + i)) := by
    rw [h.frame src (h₀.tree.outstanding r hr _ src hsrc) hsrcc, entryAt, ht, hsrc,
      pageSlot_page hN]
    rfl
  -- writing an entry of the table leaves the tables above it alone
  have hk : ∀ {s1 : Machine} (e : Entry), Ensured userView roots c (tablePath (page N)) s1 dst s1 →
      Tree userView (s1.write dst (BitVec.ofNat 9 i) e) roots →
      Ensured userView roots c (tablePath (page N)) (s1.write dst (BitVec.ofNat 9 i) e) dst
        (s1.write dst (BitVec.ofNat 9 i) e) := fun e hen htr => by
    refine hen.keep (by simp [tablePath]) htr fun up f hup hf => ?_
    have hfd : f ≠ dst := hen.tree.ne_of_length hc hen.table hc hf (by simp [tablePath]; omega)
    rw [mem_write, writeSlot_table_ne hfd]
  rw [Machine.copyEntry, hent] at hca
  dsimp only at hca
  split_ifs at hca with hz hp
  · cases hca
    refine ⟨h.mono (by omega) fun n hn hn' => ?_, hd⟩
    have hnat : n.toNat = N + i := by omega
    rwa [← page_toNat n, hnat]
  · cases hca
    have hnot : ¬ userView.owned (pagePath (page (N + i))) (userView.entryAt s₀ r (page (N + i))) :=
      fun ho => hp (of_decide_eq_true ho).2
    have hs := (ht ▸ hd).pageSet hc (e := userView.entryAt s₀ r (page (N + i)))
      fun ho => absurd ho hnot
    rw [pageSlot_page hN] at hs
    refine ⟨h.pageSet hc hu hs (h.trees.pageSet hc hs fun ho => absurd ho hnot)
      ⟨id, fun _ => rfl, fun _ hno => absurd hno hp⟩ fun _ hno => absurd hno hp,
      hk _ hd hs.tree⟩
  obtain ⟨⟨g, s1⟩, hl, hpu⟩ := bind_eq_ok.mp hca
  cases hpu
  obtain ⟨hg, hs1⟩ := physAlloc_eq_ok hl
  generalize he : userView.entryAt s₀ r (page (N + i)) = e at *
  have hno : e &&& pageNophys = 0 := not_not.mp hp
  have ha : userView.tableAt s₀ r (pagePath (page (N + i))) = some (frameOf e) := by
    rw [← he] at hz hno ⊢
    exact userView_tableAt_page hz hno
  have hpa : frameOf e ≠ c := by
    intro hq
    exact hrc (h₀.tree.separated r hr c hc _ [] c (hq ▸ ha) rfl).1
  obtain ⟨h2, hw, hfr⟩ := h.alloc_fill hc hl (s1.mem (frameOf e))
  generalize hs2 : s1.fill g (s1.mem (frameOf e)) = s2 at *
  have hmem2 : ∀ f ∈ s.outstanding, s2.mem f = s.mem f := by
    intro f hf
    have hfg : f ≠ g := by
      rintro rfl
      exact hg hf
    rw [← hs2, mem_fill, update_of_ne hfg, hs1]
  have hdst2 : Ensured userView roots c (tablePath (page N)) s2 dst s2 :=
    hd.keep (by simp [tablePath]) h2.trees.tree fun up f _ hf =>
      hmem2 f (hd.tree.outstanding c hc up f hf)
  have hs := (ht ▸ hdst2).pageSet hc (e := frameAddr g ||| (e &&& ~~~memPageMask))
    fun _ => (frameOf_copy g e).symm ▸ ⟨hw.1, hw.2.1⟩
  rw [pageSlot_page hN] at hs
  have hpre : (frameAddr g ||| (e &&& ~~~memPageMask)) &&& pagePresent ≠ 0 := by
    rw [and_flag_congr (copy_flags g e) rfl, ← he]
    refine h₀.present r hr _ ?_
    rw [he]
    exact decide_eq_true ⟨hz, hno⟩
  have hdstg : g ≠ dst := fun hq => hg (hq ▸ hd.tree.outstanding c hc _ dst hd.table)
  have hco : CopyOf s₀ (s2.write dst (BitVec.ofNat 9 i) (frameAddr g ||| (e &&& ~~~memPageMask)))
      e (frameAddr g ||| (e &&& ~~~memPageMask)) := by
    refine ⟨fun h => absurd h hz, fun h => absurd hno h, fun _ _ => ?_⟩
    refine ⟨⟨ne_zero_of_present hpre, ?_⟩, copy_flags g e, ?_, ?_⟩
    · rw [and_flag_congr (copy_flags g e) rfl, hno]
    · rwa [frameOf_copy]
    rw [frameOf_copy, mem_write, writeSlot_table_ne hdstg, ← hs2, mem_fill,
      update_self, hs1, h.frame _ (h₀.tree.outstanding r hr _ _ ha) hpa]
  refine ⟨h2.pageSet hc hu hs (h2.trees.pageSet hc hs fun _ => ⟨hpre, ?_⟩) (he ▸ hco)
    fun _ _ => (frameOf_copy g e).symm ▸ hfr, hk _ hdst2 hs.tree⟩
  rw [frameOf_copy]
  exact hw.2.2

theorem Copying.copyTable (h : Copying k roots r c s₀ s N) {v : BitVec 64}
    (hv : v.toNat = 4096 * N) {s1 : Machine} (hf : s.findTableEnsure c v = .ok (dst, s1))
    (ha : indices.foldlM (Machine.copyEntry src dst) (s1.fill dst fun _ => 0) = .ok s') :
    Copying k roots r c s₀ s' (N + 512) := by
  have hpa := pageOf_of_toNat hv
  have he := findTableEnsure_spec h.trees.tree hc (hpa ▸ scope_page hlt) hf
  rw [hpa] at he
  have h1 := h.ensured hc he
  -- the child had no pages from here on, so that its table is empty
  have hm : s1.mem dst = fun _ => 0 := by
    funext j
    have hj := h1.rest (page (N + j.toNat)) (by rw [toNat_page (by omega)]; omega)
    have hp : tablePath (page (N + j.toNat)) = tablePath (page N) :=
      tablePath_page (by omega)
    rw [entryAt, hp, he.table, pageSlot_page hN, ofNat_toNat, setWidth_eq]
      at hj
    exact hj
  have hfi : s1.fill dst (fun _ => 0) = s1 := by
    rw [Machine.fill, ← hm, update_eq_self]
  rw [hfi] at ha
  have hd : Ensured userView roots c (tablePath (page N)) s1 dst s1 :=
    ⟨he.tree, Extends.refl, he.table, he.entered⟩
  exact (foldlM_range_ok (fun i s => Copying k roots r c s₀ s (N + i) ∧
    Ensured userView roots c (tablePath (page N)) s dst s)
    (fun i hi s s' hs hs' => hs.1.copyEntry h₀ hr hc hrc hN hlt hsrc hi hs.2 hs') ⟨h1, hd⟩ ha).1

end Table

/-! ## The walk -/

/-- From page `N` on, the next `D` pages have no page table, and both ends of them are aligned. -/
structure Skips (s₀ : Machine) (r : Frame) (N D : ℕ) : Prop where
  size : D = 2 ^ 27 ∨ D = 2 ^ 18 ∨ D = 512
  start : N % D = 0
  absent : ∀ M, N ≤ M → M < N + D → userView.tableAt s₀ r (tablePath (page M)) = none
  next : Aligned s₀ r (N + D)

theorem Aligned.next (h : Aligned s₀ r N) (hpm4 : userView.tableAt s₀ r [rootSlot (page N)] ≠ none)
    (hp : userView.tableAt s₀ r [(page N).extractLsb' 18 9, rootSlot (page N)] ≠ none) :
    Aligned s₀ r (N + 512) where
  table := by
    have := h.table
    omega
  pdp hn := by
    have := h.table
    rw [pdpPath_page (N := N + 512) (M := N) (by omega)]
    exact hp
  pml4 hn := by
    have := h.table
    rw [rootSlot_page (N := N + 512) (M := N) (by omega)]
    exact hpm4

variable {v : BitVec 64}

theorem findTable_walk (hal : Aligned s₀ r N) (hlt : N < 2 ^ 35) (hv : v.toNat = 4096 * N)
    (hs : ∀ p, userView.tableAt s r p = userView.tableAt s₀ r p) :
    (∃ src, findTable s.mem r v = .ok src ∧
      userView.tableAt s₀ r (tablePath (page N)) = some src ∧ Aligned s₀ r (N + 512)) ∨
    ∃ D, findTable s.mem r v = .error (BitVec.ofNat 64 (4096 * D)) ∧ Skips s₀ r N D := by
  have ha := pageOf_of_toNat hv
  have hf := findTable_eq userView s r (ha ▸ scope_page hlt)
  rw [pml4Index_eq, pdpIndex_eq, ha, hs, hs, hs] at hf
  by_cases hpm4 : userView.tableAt s₀ r [rootSlot (page N)] = none
  · rw [if_pos hpm4] at hf
    have ht : N % 2 ^ 27 = 0 := by
      by_contra hn
      exact hal.pml4 hn hpm4
    refine .inr ⟨2 ^ 27, hf, .inl rfl, ht, fun M hM hM' => ?_, ?_⟩
    · refine tableAt_cons_of_none (tableAt_cons_of_none ?_)
      rw [rootSlot_page (N := M) (M := N) (by omega)]
      exact hpm4
    · exact ⟨by omega, fun hn => absurd (by omega) hn, fun hn => absurd (by omega) hn⟩
  rw [if_neg hpm4] at hf
  by_cases hp : userView.tableAt s₀ r [(page N).extractLsb' 18 9, rootSlot (page N)] = none
  · rw [if_pos hp] at hf
    have ht : N % 2 ^ 18 = 0 := by
      by_contra hn
      exact hal.pdp hn hp
    refine .inr ⟨2 ^ 18, hf, .inr (.inl rfl), ht, fun M hM hM' => ?_, ?_⟩
    · refine tableAt_cons_of_none ?_
      rw [pdpPath_page (N := M) (M := N) (by omega)]
      exact hp
    · refine ⟨by omega, fun hn => absurd (by omega) hn, fun hn => ?_⟩
      rw [rootSlot_page (N := N + 2 ^ 18) (M := N) (by omega)]
      exact hpm4
  rw [if_neg hp] at hf
  cases hpt : userView.tableAt s₀ r (tablePath (page N)) with
  | none =>
    rw [hpt] at hf
    refine .inr ⟨512, hf, .inr (.inr rfl), hal.table, fun M hM hM' => ?_, hal.next hpm4 hp⟩
    have := hal.table
    rwa [tablePath_page (N := M) (M := N) (by omega)]
  | some src =>
    rw [hpt] at hf
    exact .inl ⟨src, hf, rfl, hal.next hpm4 hp⟩

theorem Skips.le (h : Skips s₀ r N D) (hlt : N < 2 ^ 35) : N + D ≤ 2 ^ 35 := by
  have hs := h.start
  rcases h.size with rfl | rfl | rfl <;> omega

theorem Skips.pos (h : Skips s₀ r N D) : 512 ≤ D := by
  rcases h.size with rfl | rfl | rfl <;> decide

theorem Copying.skip (h : Copying k roots r c s₀ s N) (hs : Skips s₀ r N D) :
    Copying k roots r c s₀ s (N + D) := h.mono (Nat.le_add_right N D) fun n hn hn' => by
  rw [entryAt, ← page_toNat n, hs.absent _ hn hn']
  rfl

/-- What the walk from page `N` on has gone over. -/
structure WalkFrom (s₀ : Machine) (r : Frame) (N : ℕ) (walk : Machine.Walk) : Prop where
  aligned : ∀ skip ∈ walk.skips, skip.1.toNat % skip.2.toNat = 0
  nodup : walk.tables.Nodup
  mem_iff : ∀ v, v ∈ walk.tables ↔ 4096 * N ≤ v.toNat ∧ v.toNat < 2 ^ 47 ∧ v.toNat % 2 ^ 21 = 0 ∧
    userView.tableAt s₀ r (tablePath (pageOf v)) ≠ none

theorem WalkFrom.done : WalkFrom s₀ r (2 ^ 35) {} where
  aligned _ h := absurd h List.not_mem_nil
  nodup := List.nodup_nil
  mem_iff v := by
    refine ⟨fun h => absurd h List.not_mem_nil, fun h => ?_⟩
    omega

variable {walk : Machine.Walk}

theorem WalkFrom.table (h : WalkFrom s₀ r (N + 512) walk) (hv : v.toNat = 4096 * N)
    (hN : N % 512 = 0) (hlt : N < 2 ^ 35) (hp : userView.tableAt s₀ r (tablePath (page N)) ≠ none)
      :
    WalkFrom s₀ r N { walk with tables := v :: walk.tables } where
  aligned := h.aligned
  nodup := by
    refine List.nodup_cons.mpr ⟨fun hm => ?_, h.nodup⟩
    have := ((h.mem_iff v).mp hm).1
    omega
  mem_iff u := by
    rw [List.mem_cons, h.mem_iff]
    constructor
    · rintro (rfl | ⟨hle, he⟩)
      · rw [pageOf_of_toNat hv]
        exact ⟨hv.ge, by omega, by omega, hp⟩
      · exact ⟨by omega, he⟩
    rintro ⟨hle, hl', ho, ht⟩
    by_cases hq : u.toNat = v.toNat
    · exact .inl (toNat_inj.mp hq)
    · exact .inr ⟨by omega, hl', ho, ht⟩

theorem WalkFrom.skip (h : WalkFrom s₀ r (N + D) walk) (hs : Skips s₀ r N D)
    (hv : v.toNat = 4096 * N) :
    WalkFrom s₀ r N { walk with skips := (v, BitVec.ofNat 64 (4096 * D)) :: walk.skips } where
  aligned skip hm := by
    rcases List.mem_cons.mp hm with rfl | hm
    · have hsm : 4096 * D < 2 ^ 64 := by
        rcases hs.size with rfl | rfl | rfl <;> decide
      rw [hv, toNat_ofNat, Nat.mod_eq_of_lt hsm, Nat.mul_mod_mul_left, hs.start]
    · exact h.aligned skip hm
  nodup := h.nodup
  mem_iff u := by
    rw [h.mem_iff]
    refine ⟨fun ⟨hle, he⟩ => ⟨by omega, he⟩, fun ⟨hle, hlt, ho, ht⟩ => ⟨?_, hlt, ho, ht⟩⟩
    by_contra hb
    have hu : u.toNat = 4096 * (u.toNat / 4096) := by omega
    rw [pageOf_of_toNat hu] at ht
    exact ht (hs.absent _ (by omega) (by omega))

theorem toNat_add_skip (hv : v.toNat = 4096 * N) (hlt : N + D ≤ 2 ^ 35) :
    (v + BitVec.ofNat 64 (4096 * D)).toNat = 4096 * (N + D) := by
  rw [toNat_add, toNat_ofNat, hv]
  omega

/-- The number of page tables of a pagemap from page `N` on. -/
def tablesFrom (s₀ : Machine) (r : Frame) (N : ℕ) : ℕ :=
  Nat.count (fun j => userView.tableAt s₀ r (tablePath (page (512 * j))) ≠ none) (2 ^ 26) -
    Nat.count (fun j => userView.tableAt s₀ r (tablePath (page (512 * j))) ≠ none) (N / 512)

theorem tablesFrom_anti (h : N ≤ M) : tablesFrom s₀ r M ≤ tablesFrom s₀ r N :=
  Nat.sub_le_sub_left (Nat.count_monotone _ (Nat.div_le_div_right h)) _

theorem tablesFrom_succ (hN : N % 512 = 0) (hlt : N < 2 ^ 35)
    (hp : userView.tableAt s₀ r (tablePath (page N)) ≠ none) :
    tablesFrom s₀ r N = tablesFrom s₀ r (N + 512) + 1 := by
  have hj : (N + 512) / 512 = N / 512 + 1 := by omega
  have hm : 512 * (N / 512) = N := by omega
  have ho := Nat.count_succ
    (fun j => userView.tableAt s₀ r (tablePath (page (512 * j))) ≠ none) (N / 512)
  rw [hm, if_pos hp] at ho
  have hmo := Nat.count_monotone
    (fun j => userView.tableAt s₀ r (tablePath (page (512 * j))) ≠ none)
    (show N / 512 + 1 ≤ 2 ^ 26 by omega)
  rw [tablesFrom, tablesFrom, hj]
  omega

section Loop

variable (h₀ : UserTrees k roots s₀) (hr : r ∈ roots) (hc : c ∈ roots) (hrc : r ≠ c)

include h₀ hr hc hrc

section

variable (h : Copying k roots r c s₀ s N)
include h

section

variable (hal : Aligned s₀ r N)
include hal

section

variable (hle : N ≤ 2 ^ 35)
include hle

theorem Copying.forkLoop (hv : v.toNat = 4096 * N)
    (ha : Machine.forkLoop r c 0x7FFFFFFFFFFF#64 fuel s v = .ok (s', walk)) :
    Copying k roots r c s₀ s' (2 ^ 35) ∧ WalkFrom s₀ r N walk := by
  have hve : (0x7FFFFFFFFFFF#64).toNat = 2 ^ 47 - 1 := rfl
  induction fuel generalizing s N v walk with
  | zero => cases ha
  | succ fuel ih =>
    rw [Machine.forkLoop] at ha
    by_cases he : v < 0x7FFFFFFFFFFF#64
    · rw [if_pos he] at ha
      have hlt : N < 2 ^ 35 := by
        have := lt_def.mp he
        omega
      have hsa := h.tableAt_parent h₀ hr hc hrc
      rcases findTable_walk hal hlt hv hsa with ⟨src, hf, hsrc, hn⟩ | ⟨D, hf, hk⟩
      · rw [hf] at ha
        obtain ⟨⟨dst, s1⟩, hen, hs⟩ := bind_eq_ok.mp ha
        obtain ⟨s2, ho, hs⟩ := bind_eq_ok.mp hs
        obtain ⟨⟨s3, walk'⟩, hl, hp⟩ := bind_eq_ok.mp hs
        cases hp
        have h2 := h.copyTable h₀ hr hc hrc hal.table hlt hsrc hv hen ho
        have ht := hal.table
        obtain ⟨hd, hw⟩ := ih h2 hn (by omega) (toNat_add_skip hv (by omega)) hl
        exact ⟨hd, hw.table hv hal.table hlt (hsrc ▸ some_ne_none src)⟩
      rw [hf] at ha
      obtain ⟨⟨s1, walk'⟩, hl, hp⟩ := bind_eq_ok.mp ha
      cases hp
      obtain ⟨hd, hw⟩ := ih (h.skip hk) hk.next (hk.le hlt)
        (toNat_add_skip hv (hk.le hlt)) hl
      exact ⟨hd, hw.skip hk hv⟩
    · rw [if_neg he] at ha
      cases ha
      have hg := le_def.mp (BitVec.not_lt.mp he)
      obtain rfl : N = 2 ^ 35 := by omega
      exact ⟨h, WalkFrom.done⟩

theorem Copying.forkLoop_error (hv : v.toNat = 4096 * N) (hu : 2 ^ 35 - N < 512 * fuel) {e : Fault}
    (ha : Machine.forkLoop r c 0x7FFFFFFFFFFF#64 fuel s v = .error e) : e = outOfFrames := by
  have hve : (0x7FFFFFFFFFFF#64).toNat = 2 ^ 47 - 1 := rfl
  induction fuel generalizing s N v with
  | zero => omega
  | succ fuel ih =>
    rw [Machine.forkLoop] at ha
    split_ifs at ha with hn
    have hlt : N < 2 ^ 35 := by
      have := lt_def.mp hn
      omega
    rcases findTable_walk hal hlt hv (h.tableAt_parent h₀ hr hc hrc) with
      ⟨src, hf, hsrc, hne⟩ | ⟨D, hf, hk⟩
    · rw [hf] at ha
      rcases bind_eq_error.mp ha with he | ⟨⟨dst, s1⟩, hen, hs⟩
      · exact findTableEnsure_error he
      rcases bind_eq_error.mp hs with he | ⟨s2, ho, hs⟩
      · exact foldlM_error (P := (· = outOfFrames)) (fun _ _ _ => copyEntry_error) he
      rcases bind_eq_error.mp hs with he | ⟨⟨s3, walk⟩, -, hp⟩
      · have h2 := h.copyTable h₀ hr hc hrc hal.table hlt hsrc hv hen ho
        have ht := hal.table
        exact ih h2 hne (by omega) (toNat_add_skip hv (by omega)) (by omega) he
      · cases hp
    rw [hf] at ha
    rcases bind_eq_error.mp ha with he | ⟨⟨s1, walk⟩, -, hp⟩
    · have hpos := hk.pos
      have ht := hal.table
      exact ih (h.skip hk) hk.next (hk.le hlt) (toNat_add_skip hv (hk.le hlt)) (by omega) he
    · cases hp

theorem Copying.forkLoop_returns (hv : v.toNat = 4096 * N) (hu : 2 ^ 35 - N < 512 * fuel)
    (ht : Stocked (515 * tablesFrom s₀ r N) s) :
    ∃ result, Machine.forkLoop r c 0x7FFFFFFFFFFF#64 fuel s v = .ok result := by
  have hve : (0x7FFFFFFFFFFF#64).toNat = 2 ^ 47 - 1 := rfl
  induction fuel generalizing s N v with
  | zero => omega
  | succ fuel ih =>
    rw [Machine.forkLoop]
    by_cases he : v < 0x7FFFFFFFFFFF#64
    swap
    · rw [if_neg he]
      exact ⟨_, rfl⟩
    rw [if_pos he]
    have hlt : N < 2 ^ 35 := by
      have := lt_def.mp he
      omega
    have ha := hal.table
    rcases findTable_walk hal hlt hv (h.tableAt_parent h₀ hr hc hrc) with
      ⟨src, hf, hsrc, hne⟩ | ⟨D, hf, hk⟩
    · have ho : tablesFrom s₀ r N = tablesFrom s₀ r (N + 512) + 1 :=
        tablesFrom_succ ha hlt (hsrc ▸ some_ne_none src)
      rw [ho, Nat.mul_succ] at ht
      obtain ⟨dst, s1, hn, hs1⟩ := Stocked.findTableEnsure (n := _ + 512) ht c v
      have hs₁' : Stocked (515 * tablesFrom s₀ r (N + 512) + indices.length)
          (s1.fill dst fun _ => 0) := by
        rw [indices, List.length_map, List.length_range]
        exact hs1.congr rfl rfl
      obtain ⟨s2, hco, hs2⟩ := foldlM_returns Stocked (fun n s i hs => hs.copyEntry src dst i) hs₁'
      have h2 := h.copyTable h₀ hr hc hrc hal.table hlt hsrc hv hn hco
      obtain ⟨⟨s3, walk⟩, hl⟩ := ih h2 hne (by omega) (toNat_add_skip hv (by omega)) (by omega) hs2
      rw [hf]
      simp only [hn, hco, ok_bind]
      rw [show (0x200000#64) = BitVec.ofNat 64 (4096 * 512) from rfl, hl]
      exact ⟨_, rfl⟩
    · have hp := hk.pos
      obtain ⟨⟨s1, walk⟩, hl⟩ := ih (h.skip hk) hk.next (hk.le hlt)
        (toNat_add_skip hv (hk.le hlt)) (by omega)
        (ht.mono (Nat.mul_le_mul_left _ (tablesFrom_anti (Nat.le_add_right N D))))
      rw [hf]
      simp only [hl, ok_bind]
      exact ⟨_, rfl⟩

end

end

end

end Loop

/-! ## `fork` -/

theorem Aligned.zero : Aligned s₀ r 0 := ⟨rfl, fun h => absurd rfl h, fun h => absurd rfl h⟩

theorem Copying.start (h : UserTrees k roots s₀)
    (hb : ∀ i, userView.child [i] (s₀.mem c i) = none) : Copying k roots r c s₀ s₀ 0 where
  trees := h
  outstanding := List.Subset.refl _
  frame _ _ _ := rfl
  fresh _ _ hp hf := absurd (tableAt_blank hb hf).1 hp
  copied _ hn := absurd hn (Nat.not_lt_zero _)
  rest n _ := by
    have ho : userView.tableAt s₀ c (tablePath n) = none :=
      eq_none_iff_forall_ne_some.mpr fun f hf =>
        List.cons_ne_nil _ _ (tableAt_blank hb hf).1
    rw [entryAt, ho]
    rfl

section Fork

variable {map : Pagemap} (h : UserTrees k roots s) (hmap : map.IsUser) (hr : map.pageRoot ∈ roots)
  {gflags : BitVec 32}

include h hr

section

variable (hcr : s.create k = .ok (root, s'))
include hcr

theorem UserTrees.tableAt_create (p : List Index) :
    userView.tableAt s' map.pageRoot p = userView.tableAt s map.pageRoot p := by
  refine tableAt_congr fun up f _ hf i => ?_
  rw [create_mem hcr (h.tree.outstanding _ hr up f hf)]

theorem UserTrees.entryAt_create (n : PageNumber) :
    userView.entryAt s' map.pageRoot n = userView.entryAt s map.pageRoot n := by
  refine entryAt_congr (h.tableAt_create hr hcr _) fun t ht => ?_
  rw [create_mem hcr (h.tree.outstanding _ hr _ t ht)]

theorem UserTrees.ne_created : map.pageRoot ≠ root := by
  intro he
  exact (create_eq_ok hcr).1 (he ▸ h.tree.outstanding _ hr [] _ rfl)

end

include hmap

theorem UserTrees.fork {ch : Pagemap} (ha : s.fork map k gflags = .ok (ch, s', walk)) :
    ch.IsUser ∧ ∃ s₀, s.create k = .ok (ch.pageRoot, s₀) ∧
      Copying k (Insert.insert ch.pageRoot roots) map.pageRoot ch.pageRoot s₀ s' (2 ^ 35) ∧
      WalkFrom s₀ map.pageRoot 0 walk := by
  obtain ⟨⟨root, s₀⟩, hcr, he⟩ := bind_eq_ok.mp ha
  obtain ⟨⟨s1, walk1⟩, hl, hp⟩ := bind_eq_ok.mp he
  obtain ⟨rfl, hpa⟩ := Prod.mk.inj (Except.ok.inj hp)
  cases hpa
  have h₀ := h.create hcr
  rw [hmap.vend] at hl
  obtain ⟨ho, hw⟩ := (Copying.start (r := map.pageRoot) h₀
    (create_blank hcr)).forkLoop h₀ (.inr hr) (.inl rfl) (h.ne_created hr hcr)
    Aligned.zero (Nat.zero_le _) rfl hl
  exact ⟨⟨hmap.vstart, hmap.vend⟩, s₀, hcr, ho, hw⟩

theorem UserTrees.fork_error {e : Fault} (hca : s.fork map k gflags = .error e) :
    e = outOfFrames := by
  rcases bind_eq_error.mp hca with hcr | ⟨⟨root, s₀⟩, hcr, he⟩
  · rcases bind_eq_error.mp hcr with ha | ⟨⟨g, s1⟩, -, hp⟩
    · exact physAlloc_error ha
    · cases hp
  rcases bind_eq_error.mp he with hl | ⟨⟨s1, walk⟩, -, hp⟩
  · have h₀ := h.create hcr
    rw [hmap.vend] at hl
    exact (Copying.start (r := map.pageRoot) h₀ (create_blank hcr)).forkLoop_error h₀
      (.inr hr) (.inl rfl) (h.ne_created hr hcr) Aligned.zero (Nat.zero_le _) rfl
      (by decide) hl
  · cases hp

theorem UserTrees.fork_returns (hs : Stocked (515 * tablesFrom s map.pageRoot 0 + 1) s) :
    ∃ result, s.fork map k gflags = .ok result := by
  obtain ⟨root, s1, ha, hs1⟩ := hs.physAlloc
  have hcr : s.create k = .ok (root, s1.fill root fun i => if i < 256#9 then 0 else s1.mem k i) := by
    simp only [Machine.create, ha, ok_bind, pure_eq_ok]
  generalize hs₀ : (s1.fill root fun i => if i < 256#9 then 0 else s1.mem k i) = s₀ at hcr
  have h₀ := h.create hcr
  have ht : tablesFrom s₀ map.pageRoot 0 = tablesFrom s map.pageRoot 0 := by
    simp only [tablesFrom, h.tableAt_create hr hcr]
  have hst₀ : Stocked (515 * tablesFrom s₀ map.pageRoot 0) s₀ := by
    rw [ht, ← hs₀]
    exact hs1.congr rfl rfl
  have hf : 2 ^ 35 - 0 < 512 * (2 ^ 43 + 1) := by decide
  obtain ⟨⟨s2, walk⟩, hl⟩ := (Copying.start (r := map.pageRoot) h₀
    (create_blank hcr)).forkLoop_returns h₀ (.inr hr) (.inl rfl)
    (h.ne_created hr hcr) Aligned.zero (Nat.zero_le _) (v := 0) rfl hf hst₀
  simp only [Machine.fork, hcr, ok_bind, hmap.vend, hl]
  exact ⟨_, rfl⟩

end Fork

end AexKernel.Mem
