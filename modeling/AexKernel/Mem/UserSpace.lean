import AexKernel.Mem.PageTree

/-! # The user halves of pagemaps

A user pagemap owns the tables that its root reaches through the slots 0 to 255 and the frames of
the page entries without `PAGE_NOPHYS`. -/

namespace AexKernel.Mem

open Library List Function Machine View

def userView : View where
  scope i := i < 256#9
  owned _ e := e ≠ 0 ∧ e &&& pageNophys = 0
  owned_zero _ := rfl

def kernelView : View where
  scope i := ¬ i < 256#9
  owned _ _ := false
  owned_zero _ := rfl

/-- A frame that the kernel half of some root refers to, or the root of the kernel's pagemap. -/
def KernelFrame (k : Frame) (roots : Set Frame) (s : Machine) (f : Frame) : Prop :=
  f = k ∨ ∃ r ∈ insert k roots, ∃ p, p ≠ [] ∧ kernelView.tableAt s r p = some f

/-- The user halves of the pagemaps with the given roots form a tree, apart from the frames of the
kernel half, which may be shared but only as tables of one level. -/
structure UserTrees (k : Frame) (roots : Set Frame) (s : Machine) : Prop where
  tree : Tree userView s roots
  kernel : ∀ f, KernelFrame k roots s f → Spare userView roots s f
  level : ∀ r ∈ insert k roots, ∀ r' ∈ insert k roots, ∀ p p' f,
    kernelView.tableAt s r p = some f → kernelView.tableAt s r' p' = some f → p.length = p'.length
  present : ∀ r ∈ roots, ∀ n, userView.owned (pagePath n) (userView.entryAt s r n) →
    userView.entryAt s r n &&& pagePresent ≠ 0

def Loose (k : Frame) (roots : Set Frame) (s : Machine) (f : Frame) : Prop :=
  Unreached userView.child s.mem roots f ∧ ¬ KernelFrame k roots s f

variable {k : Frame} {roots : Set Frame} {s s' : Machine} {r : Frame}

/-! ## What leaves the kernel half alone -/

/-- The frames of the kernel half and the kernel half of every root are as they were. -/
structure Undisturbed (k : Frame) (roots : Set Frame) (s s' : Machine) : Prop where
  kernel : ∀ f, KernelFrame k roots s f → s'.mem f = s.mem f
  beyond : ∀ r ∈ roots, ∀ i, ¬ userView.scope i → s'.mem r i = s.mem r i

variable {i : Index}

theorem kernelView_child_user (hi : userView.scope i) (e : Entry) :
    kernelView.child [i] e = none := by
  refine if_neg fun h => ?_
  have hk : ¬ i < 256#9 := of_decide_eq_true h.1
  exact hk (of_decide_eq_true hi)

theorem Undisturbed.tableAt (h : Undisturbed k roots s s') (hr : r ∈ insert k roots)
    (p : List Index) : kernelView.tableAt s' r p = kernelView.tableAt s r p := by
  refine tableAt_congr fun up f _ hf i => ?_
  by_cases hu : up = []
  · subst hu
    cases hf
    rcases hr with rfl | hr
    · rw [h.kernel r (.inl rfl)]
    by_cases hi : userView.scope i
    · rw [kernelView_child_user hi, kernelView_child_user hi]
    · rw [h.beyond r hr i hi]
  · rw [h.kernel f (.inr ⟨r, hr, up, hu, hf⟩)]

theorem Undisturbed.kernelFrame_iff (h : Undisturbed k roots s s') (f : Frame) :
    KernelFrame k roots s' f ↔ KernelFrame k roots s f := by
  refine or_congr Iff.rfl (exists_congr fun r => and_congr_right fun hr => exists_congr fun p => ?_)
  rw [h.tableAt hr]

section

variable (h : UserTrees k roots s)
include h

theorem UserTrees.undisturbed (hr : r ∈ roots)
    (hfr : ∀ f ∈ s.outstanding, (∀ q, userView.tableAt s r q ≠ some f) → s'.mem f = s.mem f)
    (hb : ∀ i, ¬ userView.scope i → s'.mem r i = s.mem r i) : Undisturbed k roots s s' where
  kernel f hf := hfr f (h.kernel f hf).1 ((h.kernel f hf).2 r hr)
  beyond r' hr' i hi := by
    by_cases hrr : r' = r
    · exact hrr ▸ hb i hi
    have ho : userView.tableAt s r' [] = some r' := rfl
    refine congrFun (hfr r' (h.tree.outstanding r' hr' [] r' ho) fun q hq => ?_) i
    exact hrr (h.tree.separated r hr r' hr' q [] r' hq ho).1.symm

theorem UserTrees.grow (hs : Undisturbed k roots s s') (htr : Tree userView s' roots)
    (hsp : ∀ f, KernelFrame k roots s f → Spare userView roots s' f)
    (hp : ∀ r ∈ roots, ∀ n, userView.owned (pagePath n) (userView.entryAt s' r n) →
      userView.entryAt s' r n &&& pagePresent ≠ 0) :
    UserTrees k roots s' where
  tree := htr
  kernel f hf := hsp f ((hs.kernelFrame_iff f).mp hf)
  level r hr r' hr' p p' f hf hf' := h.level r hr r' hr' p p' f
    ((hs.tableAt hr p).symm.trans hf) ((hs.tableAt hr' p').symm.trans hf')
  present := hp

variable {n : PageNumber}

theorem UserTrees.undisturbed_pageSet (hr : r ∈ roots) {e : Entry}
    (hs : PageSet userView roots r n e s s') : Undisturbed k roots s s' :=
  h.undisturbed hr (fun f hf hn => hs.frame f hf fun q _ => hn q) hs.beyond

theorem UserTrees.pageSet (hr : r ∈ roots) {e : Entry} (hs : PageSet userView roots r n e s s')
    (he : userView.owned (pagePath n) e → e &&& pagePresent ≠ 0 ∧ ¬ KernelFrame k roots s (frameOf e)) :
    UserTrees k roots s' := by
  refine h.grow (h.undisturbed_pageSet hr hs) hs.tree (fun f hf => ?_) fun r' hr' m hm => ?_
  · exact hs.spare (h.kernel f hf) fun ho hq => (he ho).2 (hq ▸ hf)
  rw [hs.entries r' hr'] at hm ⊢
  split_ifs at hm ⊢ with hp
  · obtain ⟨-, rfl⟩ := hp
    exact (he hm).1
  · exact h.present r' hr' m hm

end

variable {t : Frame} {q : List Index}

theorem UserTrees.ensured (h : UserTrees k roots s) (hr : r ∈ roots)
    (he : Ensured userView roots r q s t s') : UserTrees k roots s' := by
  have hs : Undisturbed k roots s s' :=
    h.undisturbed hr (fun f hf ho => he.grown.frame f hf fun q _ => ho q) he.grown.beyond
  refine h.grow hs he.tree (fun f hf => he.grown.spare (h.kernel f hf)) fun r' hr' n hn => ?_
  rw [he.grown.entries r' hr'] at hn ⊢
  exact h.present r' hr' n hn

/-! ## Frames -/

variable {g : Frame}

section

variable {view : View} (hg : ∀ r ∈ roots, ∀ q, q.length < 4 → view.tableAt s r q ≠ some g)
include hg

variable (words : Index → Entry)

theorem Tree.tableAt_fill (hr : r ∈ roots) (p : List Index) :
    view.tableAt (s.fill g words) r p = view.tableAt s r p := by
  refine tableAt_congr fun up f _ hf i => ?_
  by_cases hl : up.length < 4
  · have hfg : f ≠ g := by
      rintro rfl
      exact hg r hr up hl hf
    rw [mem_fill, update_of_ne hfg]
  · rw [child_leaf (Nat.not_lt.mp hl), child_leaf (Nat.not_lt.mp hl)]

theorem Tree.entryAt_fill (hr : r ∈ roots) (n : PageNumber) :
    view.entryAt (s.fill g words) r n = view.entryAt s r n := by
  refine entryAt_congr (Tree.tableAt_fill hg words hr _) fun t ht => ?_
  have htg : t ≠ g := by
    rintro rfl
    exact hg r hr _ (by simp [tablePath]) ht
  rw [mem_fill, update_of_ne htg]

end

theorem Tree.fill {view : View} (htr : Tree view s roots)
    (hg : ∀ r ∈ roots, ∀ q, q.length < 4 → view.tableAt s r q ≠ some g) (w : Index → Entry) :
    Tree view (s.fill g w) roots := by
  have hs := fun {r} (hr : r ∈ roots) => Tree.tableAt_fill hg w hr
  refine ⟨htr.separated.congr fun r hr => hs hr, ?_, ?_⟩
  · intro r hr p f hf
    exact htr.outstanding r hr p f (hs hr p ▸ hf)
  intro r hr q t hq hl i hc he hn j
  rw [hs hr] at hq
  have ht : t ≠ g := by
    rintro rfl
    exact hg r hr q (hl.trans (by decide)) hq
  simp only [mem_fill, update_of_ne ht] at he hn ⊢
  have ha : frameOf (s.mem t i) ≠ g := by
    rintro rfl
    refine hg r hr (i :: q) (Nat.succ_lt_succ hl) ?_
    rw [tableAt_slot hq hl hc, if_neg he]
  rw [update_of_ne ha]
  exact htr.dormant r hr q t hq hl i hc he hn j

theorem UserTrees.fill (h : UserTrees k roots s) (hk : ¬ KernelFrame k roots s g)
    (hg : ∀ r ∈ roots, ∀ q, q.length < 4 → userView.tableAt s r q ≠ some g)
    (w : Index → Entry) :
    UserTrees k roots (s.fill g w) ∧ Undisturbed k roots s (s.fill g w) := by
  have hs : Undisturbed k roots s (s.fill g w) := by
    constructor
    · intro f hf
      have hfg : f ≠ g := by
        rintro rfl
        exact hk hf
      rw [mem_fill, update_of_ne hfg]
    intro r hr i _
    have hrg : r ≠ g := by
      rintro rfl
      exact hg r hr [] (by decide) rfl
    rw [mem_fill, update_of_ne hrg]
  refine ⟨h.grow hs (h.tree.fill hg w) (fun f hf => ?_) fun r hr n hn => ?_, hs⟩
  · refine ⟨(h.kernel f hf).1, fun r hr p hp => (h.kernel f hf).2 r hr p ?_⟩
    exact (Tree.tableAt_fill hg w hr p).symm.trans hp
  · rw [Tree.entryAt_fill hg w hr] at hn ⊢
    exact h.present r hr n hn

theorem UserTrees.outstanding (h : UserTrees k roots s) (hm : s'.mem = s.mem)
    (hr : ∀ r ∈ roots, ∀ p f, userView.tableAt s r p = some f → f ∈ s'.outstanding)
    (hk : ∀ f, KernelFrame k roots s f → f ∈ s'.outstanding) : UserTrees k roots s' := by
  rcases s with ⟨mem, supply, outstanding⟩
  rcases s' with ⟨mem', supply', outstanding'⟩
  obtain rfl : mem' = mem := hm
  exact ⟨⟨h.tree.separated, hr, h.tree.dormant⟩,
    fun f hf => ⟨hk f hf, (h.kernel f hf).2⟩, h.level, h.present⟩

variable {f r' t' : Frame}

theorem Loose.congr (h : Loose k roots s f) (hm : s'.mem = s.mem) : Loose k roots s' f := by
  rcases s with ⟨mem, supply, outstanding⟩
  rcases s' with ⟨mem', supply', outstanding'⟩
  obtain rfl : mem' = mem := hm
  exact h

section

variable (h : UserTrees k roots s)
include h

theorem UserTrees.physAlloc (ha : s.physAlloc = .ok (g, s')) :
    UserTrees k roots s' ∧ g ∈ s'.outstanding ∧ Loose k roots s' g := by
  obtain ⟨hg, hs'⟩ := physAlloc_eq_ok ha
  have hm : s'.mem = s.mem := by rw [hs']
  have hout : s'.outstanding = g :: s.outstanding := by rw [hs']
  refine ⟨h.outstanding hm (fun r hr p f hf => ?_) fun f hf => ?_, ?_, ?_, ?_⟩
  · exact hout ▸ mem_cons_of_mem _ (h.tree.outstanding r hr p f hf)
  · exact hout ▸ mem_cons_of_mem _ (h.kernel f hf).1
  · exact hout ▸ mem_cons_self
  · intro r hr p hp
    rw [hm] at hp
    exact hg (h.tree.outstanding r hr p g hp)
  · rintro (rfl | ⟨r, hr, p, hp, hf⟩)
    · exact hg (h.kernel g (.inl rfl)).1
    rw [View.tableAt, hm] at hf
    exact hg (h.kernel g (.inr ⟨r, hr, p, hp, hf⟩)).1

theorem UserTrees.physFree (hg : Loose k roots s g) (hfr : s.physFree g = .ok s') :
    UserTrees k roots s' ∧ s'.mem = s.mem := by
  rw [Machine.physFree] at hfr
  split_ifs at hfr
  cases hfr
  refine ⟨h.outstanding rfl (fun r hr p f hf => ?_) fun f hf => ?_, rfl⟩
  · refine mem_filter.mpr ⟨h.tree.outstanding r hr p f hf, decide_eq_true ?_⟩
    rintro rfl
    exact hg.1 r hr p hf
  · refine mem_filter.mpr ⟨(h.kernel f hf).1, decide_eq_true ?_⟩
    rintro rfl
    exact hg.2 hf

theorem UserTrees.physFrees {fs : List Frame} (hl : ∀ f ∈ fs, Loose k roots s f)
    (hf : fs.foldlM Machine.physFree s = .ok s') : UserTrees k roots s' ∧ s'.mem = s.mem := by
  induction fs generalizing s with
  | nil =>
    cases hf
    exact ⟨h, rfl⟩
  | cons f rest ih =>
    obtain ⟨s1, hi, hr⟩ := bind_eq_ok.mp hf
    obtain ⟨h1, hm⟩ := h.physFree (hl f mem_cons_self) hi
    obtain ⟨h2, hmem2⟩ := ih h1 (fun g hg => (hl g (mem_cons_of_mem _ hg)).congr hm) hr
    exact ⟨h2, hmem2.trans hm⟩

end

/-! ## Addresses of the kernel half -/

theorem Tree.tableAt_write_outside (htr : Tree userView s roots)
    (hout : (t ∈ roots ∧ ¬ userView.scope i) ∨ Spare userView roots s t) (e : Entry)
    (hr : r ∈ roots) (p : List Index) :
    userView.tableAt (s.write t i e) r p = userView.tableAt s r p := by
  refine tableAt_congr fun up f _ hf j => ?_
  by_cases hs : f = t ∧ j = i
  · obtain ⟨rfl, rfl⟩ := hs
    rcases hout with ⟨ho, hc⟩ | hp
    · obtain ⟨-, rfl⟩ := htr.separated r hr f ho up [] f hf rfl
      have hn : ∀ e, userView.child [j] e = none := fun e => if_neg fun h => hc h.1
      rw [hn, hn]
    · exact absurd hf (hp.2 r hr up)
  · rw [mem_write, writeSlot_ne hs]

variable {p : List Index}

section

variable (htr : Tree userView s roots)
include htr

section

variable (hout : (t ∈ roots ∧ ¬ userView.scope i) ∨ Spare userView roots s t)
include hout

theorem Tree.ne_of_outside (hr : r ∈ roots) (hp : p ≠ []) (hf : userView.tableAt s r p = some f) :
    f ≠ t := by
  rintro rfl
  rcases hout with ⟨ho, -⟩ | hs
  · exact hp (htr.separated r hr f ho p [] f hf rfl).2
  · exact hs.2 r hr p hf

theorem Tree.write_outside (e : Entry) : Tree userView (s.write t i e) roots := by
  have hs := fun {r} (hr : r ∈ roots) => htr.tableAt_write_outside hout e hr
  refine ⟨htr.separated.congr fun r hr => hs hr, ?_, ?_⟩
  · intro r hr p f hf
    exact htr.outstanding r hr p f (hs hr p ▸ hf)
  intro r hr q t' hq hl j hc he hn l
  rw [hs hr] at hq
  have hsl : ¬ (t' = t ∧ j = i) := by
    rintro ⟨rfl, rfl⟩
    rcases hout with ⟨ho, hj⟩ | hp
    · exact hj (hc (htr.separated r hr t' ho q [] t' hq rfl).2)
    · exact hp.2 r hr q hq
  simp only [mem_write, writeSlot_ne hsl] at he hn ⊢
  have ht : frameOf (s.mem t' j) ≠ t :=
    htr.ne_of_outside hout hr (cons_ne_nil j q) (by rw [tableAt_slot hq hl hc, if_neg he])
  rw [writeSlot_table_ne ht]
  exact htr.dormant r hr q t' hq hl j hc he hn l

theorem Tree.entryAt_write_outside (e : Entry) (hr : r ∈ roots) (n : PageNumber) :
    userView.entryAt (s.write t i e) r n = userView.entryAt s r n := by
  refine entryAt_congr (htr.tableAt_write_outside hout e hr _) fun f hf => ?_
  have ht : f ≠ t := htr.ne_of_outside hout hr (cons_ne_nil _ _) hf
  rw [mem_write, writeSlot_table_ne ht]

end

end

section

variable (h : UserTrees k roots s)
include h

theorem UserTrees.outside (hr : r ∈ roots) (hq : kernelView.tableAt s r q = some t)
    (hi : q = [] → kernelView.scope i) :
    (t ∈ roots ∧ ¬ userView.scope i) ∨ Spare userView roots s t := by
  by_cases hn : q = []
  · subst hn
    cases hq
    refine .inl ⟨hr, fun hs => ?_⟩
    have hk : ¬ i < 256#9 := of_decide_eq_true (hi rfl)
    exact hk (of_decide_eq_true hs)
  · exact .inr (h.kernel t (.inr ⟨r, .inr hr, q, hn, hq⟩))

theorem UserTrees.ne_fresh (hg : g ∉ s.outstanding) (hr : r ∈ insert k roots)
    (hf : kernelView.tableAt s r p = some f) : f ≠ g := by
  rintro rfl
  by_cases hp : p = []
  · subst hp
    cases hf
    rcases hr with rfl | hr
    · exact hg (h.kernel r (.inl rfl)).1
    · exact hg (h.tree.outstanding r hr [] r rfl)
  · exact hg (h.kernel f (.inr ⟨r, hr, p, hp, hf⟩)).1

theorem Loose.of_fresh (hg : g ∉ s.outstanding) : Loose k roots s g :=
  ⟨fun r hr p hp => hg (h.tree.outstanding r hr p g hp), fun hk => hg (h.kernel g hk).1⟩

theorem UserTrees.write_outside (hout : (t ∈ roots ∧ ¬ userView.scope i) ∨ Spare userView roots s t)
    {e : Entry}
    (hs : ∀ r ∈ insert k roots, ∀ p, kernelView.tableAt (s.write t i e) r p =
      kernelView.tableAt s r p) :
    UserTrees k roots (s.write t i e) where
  tree := h.tree.write_outside hout e
  kernel f hf := by
    have hold : KernelFrame k roots s f := by
      refine hf.imp_right ?_
      rintro ⟨r, hr, p, hp, hf⟩
      exact ⟨r, hr, p, hp, hs r hr p ▸ hf⟩
    refine ⟨(h.kernel f hold).1, fun r hr p hp => (h.kernel f hold).2 r hr p ?_⟩
    exact (h.tree.tableAt_write_outside hout e hr p).symm.trans hp
  level r hr r' hr' p p' f hf hf' :=
    h.level r hr r' hr' p p' f (hs r hr p ▸ hf) (hs r' hr' p' ▸ hf')
  present r hr n hn := by
    rw [h.tree.entryAt_write_outside hout e hr] at hn ⊢
    exact h.present r hr n hn

theorem UserTrees.mark_outside (hr : r ∈ roots) (hq : kernelView.tableAt s r q = some t)
    (hl : q.length < 3) (hi : q = [] → kernelView.scope i) (hp : s.mem t i &&& pagePresent ≠ 0)
      :
    UserTrees k roots (s.write t i (s.mem t i ||| tableFlags)) ∧
      kernelView.tableAt (s.write t i (s.mem t i ||| tableFlags)) r (i :: q) =
        some (frameOf (s.mem t i)) := by
  have hn := ne_zero_of_present hp
  have hs : ∀ r' ∈ insert k roots, ∀ p,
      kernelView.tableAt (s.write t i (s.mem t i ||| tableFlags)) r' p =
        kernelView.tableAt s r' p := by
    intro r' hr' p
    refine tableAt_congr fun up f _ hf j => ?_
    by_cases hsl : f = t ∧ j = i
    · obtain ⟨rfl, rfl⟩ := hsl
      have hu : up.length = q.length := h.level r' hr' r (.inr hr) up q f hf hq
      have hc : up = [] → kernelView.scope j := by
        rintro rfl
        exact hi (eq_nil_of_length_eq_zero hu.symm)
      rw [mem_write, writeSlot_self, child_table (hu ▸ hl) hc (or_tableFlags_ne_zero _),
        child_table (hu ▸ hl) hc hn, frameOf_or_tableFlags]
    · rw [mem_write, writeSlot_ne hsl]
  refine ⟨h.write_outside (h.outside hr hq hi) hs, ?_⟩
  rw [hs r (.inr hr), tableAt_slot hq hl hi, if_neg hn]

end

section Plant

section

variable (h : UserTrees k roots s)
include h

theorem UserTrees.of_tableAt_plant (hg : g ∉ s.outstanding) (ht : g ≠ t) {rest : List Frame}
    (hr' : r' ∈ insert k roots) (hf : kernelView.tableAt (s.plant t i g rest) r' p = some f) :
    (kernelView.tableAt s r' p = some f) ∨
      f = g ∧ ∃ up, p = i :: up ∧ kernelView.tableAt s r' up = some t := by
  induction p generalizing f with
  | nil => exact .inl hf
  | cons j up ih =>
    obtain ⟨t', ht', hc⟩ := exists_of_tableAt_cons hf
    rw [mem_plant] at hc
    rcases ih ht' with hold | ⟨rfl, -⟩
    · by_cases hs : t' = t ∧ j = i
      · obtain ⟨rfl, rfl⟩ := hs
        have hr := frameOf_of_child hc
        rw [writeSlot_self, frameOf_or_tableFlags, frameOf_frameAddr] at hr
        exact .inr ⟨hr.symm, up, rfl, hold⟩
      · rw [writeSlot_ne hs, update_of_ne (h.ne_fresh hg hr' hold)] at hc
        exact .inl ((tableAt_cons hold j).trans hc)
    · rw [writeSlot_table_ne ht, update_self, child_zero] at hc
      cases hc

theorem UserTrees.tableAt_plant_above (hr : r ∈ roots) (hq : kernelView.tableAt s r q = some t)
    (hg : g ∉ s.outstanding) (rest : List Frame) (hl : p.length ≤ q.length)
    (hf : kernelView.tableAt s r p = some f) :
    kernelView.tableAt (s.plant t i g rest) r p = some f := by
  induction p generalizing f with
  | nil => exact hf
  | cons j up ih =>
    obtain ⟨t', ht', hc⟩ := exists_of_tableAt_cons hf
    have ht : up.length < q.length := hl
    have ht'' := ih ht.le ht'
    have htt : t' ≠ t := by
      rintro rfl
      exact ht.ne (h.level r (.inr hr) r (.inr hr) up q t' ht' hq)
    rw [View.tableAt, tableAt_cons ht'', mem_plant, writeSlot_table_ne htt,
      update_of_ne (h.ne_fresh hg (.inr hr) ht'), hc]

theorem UserTrees.plant_outside (hr : r ∈ roots) (hq : kernelView.tableAt s r q = some t)
    (he : q.length < 3) (hi : q = [] → kernelView.scope i) (hg : g ∉ s.outstanding)
    (rest : List Frame) :
    UserTrees k roots (s.plant t i g rest) ∧
      kernelView.tableAt (s.plant t i g rest) r (i :: q) = some g := by
  have hout := h.outside hr hq hi
  have hl := Loose.of_fresh h hg
  have hgt : g ≠ t := (h.ne_fresh hg (.inr hr) hq).symm
  -- the frame is taken, cleared, and then written into the slot
  let s1 : Machine := { s with supply := rest, outstanding := g :: s.outstanding }
  have h1 : UserTrees k roots s1 := h.outstanding rfl
    (fun r hr p f hf => mem_cons_of_mem _ (h.tree.outstanding r hr p f hf))
    fun f hf => mem_cons_of_mem _ (h.kernel f hf).1
  have h2 := (h1.fill hl.2 (fun r hr q _ => hl.1 r hr q) fun _ => 0).1
  have hout2 : (t ∈ roots ∧ ¬ userView.scope i) ∨
      Spare userView roots (s1.fill g fun _ => 0) t := by
    refine hout.imp_right fun ht => ⟨mem_cons_of_mem _ ht.1, fun r hr p hp => ht.2 r hr p ?_⟩
    exact (tableAt_update hl.1 _ hr p).symm.trans hp
  have hs : ∀ r ∈ roots, ∀ p,
      userView.tableAt (s.plant t i g rest) r p = userView.tableAt s r p := fun r hr p =>
    (h2.tree.tableAt_write_outside hout2 _ hr p).trans (tableAt_update hl.1 _ hr p)
  refine ⟨⟨h2.tree.write_outside hout2 _, fun f hf => ?_, ?_, fun r hr n hn => ?_⟩, ?_⟩
  · have hf : (f ∈ s.outstanding ∨ f = g) ∧ Unreached userView.child s.mem roots f := by
      rcases hf with rfl | ⟨r', hr', p, hp, hf⟩
      · exact (h.kernel f (.inl rfl)).imp_left .inl
      rcases h.of_tableAt_plant hg hgt hr' hf with hold | ⟨rfl, -⟩
      · exact (h.kernel f (.inr ⟨r', hr', p, hp, hold⟩)).imp_left .inl
      · exact ⟨.inr rfl, hl.1⟩
    exact ⟨mem_cons.mpr hf.1.symm, fun r hr p hp =>
      hf.2 r hr p ((hs r hr p).symm.trans hp)⟩
  · intro r1 hr1 r2 hr2 p1 p2 f hf1 hf2
    rcases h.of_tableAt_plant hg hgt hr1 hf1 with hold1 | ⟨hfg, up1, rfl, ht1⟩
    · rcases h.of_tableAt_plant hg hgt hr2 hf2 with hold2 | ⟨hfg, -⟩
      · exact h.level r1 hr1 r2 hr2 p1 p2 f hold1 hold2
      · exact absurd hfg (h.ne_fresh hg hr1 hold1)
    · rcases h.of_tableAt_plant hg hgt hr2 hf2 with hold2 | ⟨-, up2, rfl, ht2⟩
      · exact absurd hfg (h.ne_fresh hg hr2 hold2)
      · rw [length_cons, length_cons, h.level r1 hr1 r2 hr2 up1 up2 t ht1 ht2]
  · have hen : userView.entryAt (s.plant t i g rest) r n = userView.entryAt s r n :=
      (h2.tree.entryAt_write_outside hout2 _ hr n).trans
        (Tree.entryAt_fill (fun r hr q _ => hl.1 r hr q) _ hr n)
    rw [hen] at hn ⊢
    exact h.present r hr n hn
  · have ha := h.tableAt_plant_above (i := i) hr hq hg rest le_rfl hq
    rw [tableAt_slot ha he hi, mem_plant, writeSlot_self,
      if_neg (or_tableFlags_ne_zero _), frameOf_or_tableFlags, frameOf_frameAddr]

end

end Plant

section

variable (h : UserTrees k roots s)
include h

theorem UserTrees.ensureTable_outside (hr : r ∈ roots) (hq : kernelView.tableAt s r q = some t)
    (hl : q.length < 3) (hi : q = [] → kernelView.scope i)
    (hc : s.ensureTable t i = .ok (t', s')) :
    UserTrees k roots s' ∧ kernelView.tableAt s' r (i :: q) = some t' := by
  have ht : t ∈ s.outstanding := by
    rcases h.outside hr hq hi with ⟨ho, -⟩ | hs
    · exact h.tree.outstanding t ho [] t rfl
    · exact hs.1
  rcases ensureTable_cases ht hc with ⟨-, hg, hs'⟩ | ⟨hp, rfl, rfl⟩
  · rw [hs']
    exact h.plant_outside hr hq hl hi hg _
  · exact h.mark_outside hr hq hl hi hp

theorem UserTrees.findTableEnsure_outside (hr : r ∈ roots) {v : BitVec 64}
    (hv : ¬ userView.scope (rootSlot (pageOf v))) (hc : s.findTableEnsure r v = .ok (t, s')) :
    UserTrees k roots s' ∧ ∃ q, q.length = 3 ∧ kernelView.tableAt s' r q = some t := by
  obtain ⟨⟨pdp, s1⟩, hca1, he⟩ := bind_eq_ok.mp hc
  obtain ⟨⟨pd, s2⟩, hca2, hca3⟩ := bind_eq_ok.mp he
  have hs : kernelView.scope (pml4Index v) := by
    rw [pml4Index_eq]
    exact decide_eq_true fun hl => hv (decide_eq_true hl)
  obtain ⟨h1, hp1⟩ := h.ensureTable_outside hr (q := []) rfl (by simp) (fun _ => hs) hca1
  obtain ⟨h2, hp2⟩ := h1.ensureTable_outside hr hp1 (by simp) (by simp) hca2
  obtain ⟨h3, hp3⟩ := h2.ensureTable_outside hr hp2 (by simp) (by simp) hca3
  exact ⟨h3, _, rfl, hp3⟩

theorem UserTrees.assign_outside (hr : r ∈ roots) {v p : BitVec 64} {flags : BitVec 16}
    (hv : ¬ userView.scope (rootSlot (pageOf v))) (hc : s.assign r v p flags = .ok s') :
    UserTrees k roots s' := by
  obtain ⟨⟨t, s1⟩, hi, hp⟩ := bind_eq_ok.mp hc
  cases hp
  obtain ⟨h1, q, hl, hq⟩ :=
    h.findTableEnsure_outside hr (by rwa [pageOf_and_memPageMask]) hi
  have hn : q ≠ [] := ne_nil_of_length_eq_add_one hl
  refine h1.write_outside (h1.outside hr hq fun hq => absurd hq hn) fun r' hr' p' => ?_
  refine tableAt_congr fun up f _ hf j => ?_
  by_cases ht : f = t
  · -- a page entry of the kernel half refers to no table
    subst ht
    have hu : up.length = 3 := (h1.level r' hr' r (.inr hr) up q f hf hq).trans hl
    match up, hu with
    | [_, _, _], _ => rfl
  · rw [mem_write, writeSlot_table_ne ht]

end

end AexKernel.Mem
