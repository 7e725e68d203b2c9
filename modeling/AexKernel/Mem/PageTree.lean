import AexKernel.Mem.Paging

/-! # Page tables as a tree

The tables that a walk reaches from the roots of some pagemaps form a tree. -/

namespace AexKernel.Mem

open Library List Function BitVec Option
open Machine (ensureTable mem_write physAlloc unassign)

/-! ## Words -/

theorem frameOf_or (e f : Entry) : frameOf (e ||| f) = frameOf e ||| frameOf f := by
  rw [frameOf, extractLsb'_or]
  rfl

@[simp] theorem frameOf_frameAddr (f : Frame) : frameOf (frameAddr f) = f := by
  rw [frameOf, frameAddr]
  ext i hi
  simp [show 12 + i < 64 by omega, getLsbD_eq_getElem hi]

theorem getLsbD_memPageMask (i : ℕ) :
    memPageMask.getLsbD i = (decide (i < 64) && decide (12 ≤ i)) := by
  rw [memPageMask, getLsbD_not, show (0xFFF#64) = BitVec.ofNat 64 (2 ^ 12 - 1) from rfl,
    getLsbD_ofNat, Nat.testBit_two_pow_sub_one]
  by_cases h : i < 12
  · simp [h]
  · simp [h, Nat.not_lt.mp h]

theorem and_memPageMask (e : Entry) : e &&& memPageMask = frameAddr (frameOf e) := by
  apply eq_of_getLsbD_eq
  intro i hi
  rw [getLsbD_and, getLsbD_memPageMask, frameAddr, frameOf, getLsbD_shiftLeft,
    getLsbD_setWidth, getLsbD_extractLsb']
  by_cases h : i < 12
  · simp [h]
  simp [hi, Nat.not_lt.mp h, show 12 + (i - 12) = i by omega, show i - 12 < 52 by omega,
    show i - 12 < 64 by omega]

@[simp] theorem frameOf_and_memPageMask (e : Entry) : frameOf (e &&& memPageMask) = frameOf e := by
  rw [and_memPageMask, frameOf_frameAddr]

@[simp] theorem frameOf_or_tableFlags (e : Entry) : frameOf (e ||| tableFlags) = frameOf e := by
  rw [frameOf_or, show frameOf tableFlags = 0#52 from rfl, or_zero]

theorem or_tableFlags_present (e : Entry) : (e ||| tableFlags) &&& pagePresent ≠ 0 := by
  intro h
  have := congrArg (·.getLsbD 0) h
  simp [tableFlags, pagePresent] at this

theorem or_tableFlags_ne_zero (e : Entry) : e ||| tableFlags ≠ 0 := fun h =>
  or_tableFlags_present e (by rw [h]; rfl)

variable {e : Entry}

theorem ne_zero_of_present (h : e &&& pagePresent ≠ 0) : e ≠ 0 := fun h0 =>
  h (by rw [h0]; rfl)

/-! ## Page numbers -/

/-- The number of a virtual page. -/
abbrev PageNumber := BitVec 36

def pageOf (virt : BitVec 64) : PageNumber := virt.extractLsb' 12 36

def rootSlot (n : PageNumber) : Index := n.extractLsb' 27 9

def tablePath (n : PageNumber) : List Index :=
  [n.extractLsb' 9 9, n.extractLsb' 18 9, rootSlot n]

def pageSlot (n : PageNumber) : Index := n.extractLsb' 0 9

theorem pml4Index_eq (v : BitVec 64) : pml4Index v = rootSlot (pageOf v) := by
  rw [pml4Index, rootSlot, pageOf, extractLsb'_extractLsb' _ (by omega)]

theorem pdpIndex_eq (v : BitVec 64) : pdpIndex v = (pageOf v).extractLsb' 18 9 := by
  rw [pdpIndex, pageOf, extractLsb'_extractLsb' _ (by omega)]

theorem pdIndex_eq (v : BitVec 64) : pdIndex v = (pageOf v).extractLsb' 9 9 := by
  rw [pdIndex, pageOf, extractLsb'_extractLsb' _ (by omega)]

theorem ptIndex_eq (v : BitVec 64) : ptIndex v = pageSlot (pageOf v) := by
  rw [ptIndex, pageSlot, pageOf, extractLsb'_extractLsb' _ (by omega)]

@[simp] theorem pageOf_and_memPageMask (v : BitVec 64) : pageOf (v &&& memPageMask) = pageOf v := by
  have h : ∀ e : BitVec 64, pageOf e = (frameOf e).extractLsb' 0 36 := fun e => by
    rw [pageOf, frameOf, extractLsb'_extractLsb' _ (by omega)]
  rw [h, h, frameOf_and_memPageMask]

theorem page_ext {m n : PageNumber} (hp : tablePath m = tablePath n)
    (hs : pageSlot m = pageSlot n) : m = n := by
  simp only [tablePath, rootSlot, pageSlot, cons.injEq, and_true, ← toNat_inj,
    extractLsb'_toNat, Nat.shiftRight_eq_div_pow] at hp hs ⊢
  have hm := m.isLt
  have hn := n.isLt
  generalize m.toNat = a at *
  generalize n.toNat = b at *
  omega

section Numbers

variable {N : ℕ}

abbrev page (N : ℕ) : PageNumber := BitVec.ofNat 36 N

theorem pageOf_of_toNat {v : BitVec 64} (h : v.toNat = 4096 * N) : pageOf v = page N := by
  rw [← toNat_inj, pageOf, extractLsb'_toNat, Nat.shiftRight_eq_div_pow, toNat_ofNat, h]
  omega

theorem toNat_page (hN : N < 2 ^ 36) : (page N).toNat = N := by
  rw [toNat_ofNat, Nat.mod_eq_of_lt hN]

theorem page_toNat (n : PageNumber) : page n.toNat = n := by
  rw [← toNat_inj, toNat_page n.isLt]

theorem pageSlot_page {i : ℕ} (hN : N % 512 = 0) : pageSlot (page (N + i)) = BitVec.ofNat 9 i := by
  simp only [pageSlot, ← toNat_inj, extractLsb'_toNat, Nat.shiftRight_eq_div_pow, toNat_ofNat]
  omega

variable {M : ℕ}

theorem rootSlot_page (h : N / 2 ^ 27 = M / 2 ^ 27) : rootSlot (page N) = rootSlot (page M) := by
  simp only [rootSlot, ← toNat_inj, extractLsb'_toNat, Nat.shiftRight_eq_div_pow, toNat_ofNat]
  omega

theorem pdpPath_page (h : N / 2 ^ 18 = M / 2 ^ 18) :
    [(page N).extractLsb' 18 9, rootSlot (page N)] =
      [(page M).extractLsb' 18 9, rootSlot (page M)] := by
  rw [rootSlot_page (N := N) (M := M) (by omega)]
  simp only [cons.injEq, and_true, ← toNat_inj, extractLsb'_toNat,
    Nat.shiftRight_eq_div_pow, toNat_ofNat]
  omega

theorem tablePath_page (h : N / 512 = M / 512) : tablePath (page N) = tablePath (page M) := by
  rw [tablePath, tablePath, pdpPath_page (N := N) (M := M) (by omega)]
  simp only [cons.injEq, and_true, ← toNat_inj, extractLsb'_toNat,
    Nat.shiftRight_eq_div_pow, toNat_ofNat]
  omega

end Numbers

/-! ## The tree -/

/-- What a tree is made of: the slots of the root that belong to it, and the page entries that own
their frame. -/
structure View where
  scope : Index → Bool
  owned : List Index → Entry → Bool
  owned_zero : ∀ p, owned p 0 = false

def allTables : View where
  scope _ := true
  owned _ _ := false
  owned_zero _ := rfl

def View.child (view : View) (path : List Index) (e : Entry) : Option Frame :=
  match path with
  | [i] => if view.scope i ∧ e ≠ 0 then some (frameOf e) else none
  | [_, _] | [_, _, _] => if e ≠ 0 then some (frameOf e) else none
  | [_, _, _, _] => if view.owned path e then some (frameOf e) else none
  | _ => none

abbrev View.tableAt (view : View) (s : Machine) (root : Frame) (path : List Index) : Option Frame :=
  Library.tableAt view.child s.mem root path

def View.entryAt (view : View) (s : Machine) (root : Frame) (n : PageNumber) : Entry :=
  ((view.tableAt s root (tablePath n)).map fun table => s.mem table (pageSlot n)).getD 0

variable {view : View} {s s' : Machine} {roots : Set Frame} {r : Frame} {q : List Index} {i : Index}

theorem View.child_table (hl : q.length < 3) (hs : q = [] → view.scope i) (he : e ≠ 0) :
    view.child (i :: q) e = some (frameOf e) := by
  match q, hl with
  | [], _ => exact if_pos ⟨hs rfl, he⟩
  | [_], _ | [_, _], _ => exact if_pos he

theorem View.child_zero (p : List Index) : view.child p 0 = none := by
  match p with
  | [] => rfl
  | [_] => exact if_neg fun h => h.2 rfl
  | [_, _] | [_, _, _] => simp [View.child]
  | [_, _, _, _] => exact if_neg (Bool.eq_false_iff.mp (view.owned_zero _))
  | _ :: _ :: _ :: _ :: _ :: _ => rfl

variable {f : Frame}

theorem View.of_child_table (hl : q.length < 3) (h : view.child (i :: q) e = some f) :
    (q = [] → view.scope i) ∧ e ≠ 0 ∧ frameOf e = f := by
  match q, hl with
  | [], _ =>
    obtain ⟨⟨hs, he⟩, hf⟩ := ite_none_right_eq_some.mp h
    exact ⟨fun _ => hs, he, Option.some.inj hf⟩
  | [_], _ | [_, _], _ =>
    obtain ⟨he, hf⟩ := ite_none_right_eq_some.mp h
    exact ⟨fun h => absurd h (cons_ne_nil _ _), he, Option.some.inj hf⟩

variable {p : List Index}

theorem View.frameOf_of_child (h : view.child p e = some f) : frameOf e = f := by
  match p with
  | [_] | [_, _] | [_, _, _] | [_, _, _, _] =>
    exact Option.some.inj (ite_none_right_eq_some.mp h).2
  | [] | _ :: _ :: _ :: _ :: _ :: _ => cases h

theorem View.child_leaf (hl : 4 ≤ q.length) (e : Entry) : view.child (i :: q) e = none := by
  match q, hl with
  | _ :: _ :: _ :: _ :: _, _ => rfl

variable {n : PageNumber}

theorem View.entryAt_congr (ha : view.tableAt s' r (tablePath n) = view.tableAt s r (tablePath n))
    (hm : ∀ t, view.tableAt s r (tablePath n) = some t →
      s'.mem t (pageSlot n) = s.mem t (pageSlot n)) :
    view.entryAt s' r n = view.entryAt s r n := by
  rw [View.entryAt, View.entryAt, ha]
  cases ht : view.tableAt s r (tablePath n) with
  | none => rfl
  | some t => rw [map_some, map_some, hm t ht]

/-- The page tables below some roots form a tree, whose frames are in use. -/
structure Tree (view : View) (s : Machine) (roots : Set Frame) : Prop where
  separated : Separated view.child s.mem roots
  outstanding : ∀ r ∈ roots, ∀ p f, view.tableAt s r p = some f → f ∈ s.outstanding
  dormant : ∀ r ∈ roots, ∀ q t, view.tableAt s r q = some t → q.length < 3 → ∀ i,
    (q = [] → view.scope i) → s.mem t i ≠ 0 → s.mem t i &&& pagePresent = 0 →
    ∀ j, s.mem (frameOf (s.mem t i)) j = 0

/-- A machine in which the tables of the pagemap at `r` have grown. -/
structure Extends (view : View) (roots : Set Frame) (r : Frame) (s s' : Machine) : Prop where
  outstanding : s.outstanding ⊆ s'.outstanding
  reached : ∀ r' ∈ roots, ∀ p f, view.tableAt s' r' p = some f →
    view.tableAt s r' p = some f ∨ f ∉ s.outstanding
  frame : ∀ f ∈ s.outstanding, (∀ q, q.length < 3 → view.tableAt s r q ≠ some f) →
    s'.mem f = s.mem f
  beyond : ∀ i, ¬ view.scope i → s'.mem r i = s.mem r i
  entries : ∀ r' ∈ roots, ∀ n, view.entryAt s' r' n = view.entryAt s r' n

theorem Extends.refl : Extends view roots r s s where
  outstanding := List.Subset.refl _
  reached _ _ _ _ h := .inl h
  frame _ _ _ := rfl
  beyond _ _ := rfl
  entries _ _ _ := rfl

theorem Extends.trans {s1 s2 s3 : Machine} (h : Extends view roots r s1 s2)
    (h' : Extends view roots r s2 s3) (hr : r ∈ roots) : Extends view roots r s1 s3 where
  outstanding := List.Subset.trans h.outstanding h'.outstanding
  reached r' hr' p f hf := by
    rcases h'.reached r' hr' p f hf with hold | hn
    · exact h.reached r' hr' p f hold
    · exact .inr fun hf => hn (h.outstanding hf)
  frame f hf ho := by
    rw [h'.frame f (h.outstanding hf), h.frame f hf ho]
    intro q hq he
    rcases h.reached r hr q f he with hold | hn
    · exact ho q hq hold
    · exact hn hf
  beyond i hi := (h'.beyond i hi).trans (h.beyond i hi)
  entries r' hr' n := (h'.entries r' hr' n).trans (h.entries r' hr' n)

def Spare (view : View) (roots : Set Frame) (s : Machine) (f : Frame) : Prop :=
  f ∈ s.outstanding ∧ Unreached view.child s.mem roots f

theorem Extends.spare (h : Extends view roots r s s') (hf : Spare view roots s f) :
    Spare view roots s' f := by
  refine ⟨h.outstanding hf.1, fun r' hr' p hp => ?_⟩
  rcases h.reached r' hr' p f hp with hold | hn
  · exact hf.2 r' hr' p hold
  · exact hn hf.1

theorem Extends.mem_spare (h : Extends view roots r s s') (hr : r ∈ roots)
    (hf : Spare view roots s f) : s'.mem f = s.mem f :=
  h.frame f hf.1 fun q _ => hf.2 r hr q

/-- The slot that leads to the table at a path is marked as present. -/
def Entered (view : View) (s : Machine) (r : Frame) (q : List Index) : Prop :=
  ∀ i up t, q = i :: up → view.tableAt s r up = some t → s.mem t i &&& pagePresent ≠ 0

theorem Entered.nil : Entered view s r [] := fun _ _ _ h => absurd h.symm (cons_ne_nil _ _)

/-- The tables of a pagemap have grown so that the given one is on its path. -/
structure Ensured (view : View) (roots : Set Frame) (r : Frame) (path : List Index) (s : Machine)
    (t : Frame) (s' : Machine) : Prop where
  tree : Tree view s' roots
  grown : Extends view roots r s s'
  table : view.tableAt s' r path = some t
  entered : Entered view s' r path

section EnsureTable

variable {t : Frame}

section

variable (htr : Tree view s roots)
include htr

section

variable (hr : r ∈ roots)
include hr

section

variable (hq : view.tableAt s r q = some t)
include hq

theorem Tree.ne_of_length {r' : Frame} (hr' : r' ∈ roots) (hp : view.tableAt s r' p = some f)
    (hl : p.length ≠ q.length) : f ≠ t := by
  rintro rfl
  obtain ⟨-, rfl⟩ := htr.separated r' hr' r hr p q f hp hq
  exact hl rfl

theorem Tree.slot_ne_of_beyond (hs : q = [] → view.scope i) {j : Index} (hj : ¬ view.scope j) :
    ¬ (r = t ∧ j = i) := by
  rintro ⟨rfl, rfl⟩
  exact hj (hs (htr.separated.eq_of_tableAt hr hq rfl))

theorem Tree.ensured_present (hl : q.length < 3) (hc : q = [] → view.scope i)
    (hp : s.mem t i &&& pagePresent ≠ 0) :
    Ensured view roots r (i :: q) s (frameOf (s.mem t i))
      (s.write t i (s.mem t i ||| tableFlags)) := by
  have he := ne_zero_of_present hp
  have hs : ∀ r' ∈ roots, ∀ p, view.tableAt (s.write t i (s.mem t i ||| tableFlags)) r' p =
      view.tableAt s r' p := by
    intro r' hr' p
    refine tableAt_congr fun up f _ hf j => ?_
    by_cases hsl : f = t ∧ j = i
    · obtain ⟨rfl, rfl⟩ := hsl
      obtain ⟨rfl, rfl⟩ := htr.separated r' hr' r hr up q f hf hq
      rw [mem_write, writeSlot_self, View.child_table hl hc (or_tableFlags_ne_zero _),
        View.child_table hl hc he, frameOf_or_tableFlags]
    · rw [mem_write, writeSlot_ne hsl]
  have ha : view.tableAt s r (i :: q) = some (frameOf (s.mem t i)) := by
    rw [View.tableAt, tableAt_cons hq, View.child_table hl hc he]
  refine ⟨⟨htr.separated.congr hs, ?_, ?_⟩, ⟨List.Subset.refl _, ?_, ?_, ?_, ?_⟩, ?_, ?_⟩
  · intro r' hr' p f hf
    exact htr.outstanding r' hr' p f (hs r' hr' p ▸ hf)
  · intro r' hr' q' t' hq' hl' j hs' hn' hn k
    rw [hs r' hr'] at hq'
    have hsl : ¬ (t' = t ∧ j = i) := by
      rintro ⟨rfl, rfl⟩
      rw [mem_write, writeSlot_self] at hn
      exact or_tableFlags_present _ hn
    simp only [mem_write, writeSlot_ne hsl] at hn' hn ⊢
    have hz := htr.dormant r' hr' q' t' hq' hl' j hs' hn' hn k
    rw [writeSlot_ne, hz]
    rintro ⟨ht, rfl⟩
    exact he (ht ▸ hz)
  · intro r' hr' p f hf
    exact .inl (hs r' hr' p ▸ hf)
  · intro f _ hn
    have hft : f ≠ t := by
      rintro rfl
      exact hn q hl hq
    exact writeSlot_table_ne hft _ _ _
  · intro j hj
    exact writeSlot_ne (htr.slot_ne_of_beyond hr hq hc hj) _ _
  · intro r' hr' n
    refine View.entryAt_congr (hs r' hr' _) fun f hpa => ?_
    have hft : f ≠ t := htr.ne_of_length hr hq hr' hpa (Nat.ne_of_gt hl)
    rw [mem_write, writeSlot_table_ne hft]
  · rw [hs r hr, ha]
  · rintro j up f heq hf
    obtain ⟨rfl, rfl⟩ := cons.inj heq
    rw [hs r hr, hq] at hf
    cases hf
    rw [mem_write, writeSlot_self]
    exact or_tableFlags_present _

theorem Tree.below_absent (hl : q.length < 3) (hs : q = [] → view.scope i)
    (ha : s.mem t i &&& pagePresent = 0) (j : Index) : view.tableAt s r (j :: i :: q) = none := by
  by_cases hz : s.mem t i = 0
  · exact tableAt_cons_of_none (by rw [tableAt_cons hq, hz, View.child_zero])
  have ht : view.tableAt s r (i :: q) = some (frameOf (s.mem t i)) := by
    rw [View.tableAt, tableAt_cons hq, View.child_table hl hs hz]
  rw [View.tableAt, tableAt_cons ht, htr.dormant r hr q t hq hl i hs hz ha, View.child_zero]

end

end

end

/-- The machine after a table has been created behind a slot. -/
def Machine.plant (s : Machine) (t : Frame) (i : Index) (g : Frame) (rest : List Frame) : Machine where
  mem := writeSlot (Function.update s.mem g fun _ => 0) t i (frameAddr g ||| tableFlags)
  supply := rest
  outstanding := g :: s.outstanding

theorem Machine.mem_plant (s : Machine) (t : Frame) (i : Index) (g : Frame) (rest : List Frame) :
    (s.plant t i g rest).mem =
      writeSlot (update s.mem g fun _ => 0) t i (frameAddr g ||| tableFlags) := rfl

variable {g r' : Frame}

theorem Tree.tableAt_plant (htr : Tree view s roots) (hr : r ∈ roots)
    (hq : view.tableAt s r q = some t) (hl : q.length < 3) (hc : q = [] → view.scope i)
    (ha : s.mem t i &&& pagePresent = 0) (hg : g ∉ s.outstanding) (rest : List Frame)
    (hr' : r' ∈ roots) (p : List Index) :
    view.tableAt (s.plant t i g rest) r' p =
      if r' = r ∧ p = i :: q then some g else view.tableAt s r' p := by
  have hu : Unreached view.child s.mem roots g := fun r1 hr1 p1 hp1 =>
    hg (htr.outstanding r1 hr1 p1 g hp1)
  have hs := fun {r1} (hr1 : r1 ∈ roots) p1 =>
    tableAt_update hu (fun _ => (0 : Entry)) hr1 p1
  have ht : g ≠ t := fun h => hg (h ▸ htr.outstanding r hr q t hq)
  have hh : view.child (i :: q) (frameAddr g ||| tableFlags) = some g := by
    rw [View.child_table hl hc (or_tableFlags_ne_zero _), frameOf_or_tableFlags,
      frameOf_frameAddr]
  have hw := tableAt_writeSlot (htr.separated.congr fun r1 hr1 => hs hr1) hr
    ((hs hr q).trans hq) i (frameAddr g ||| tableFlags)
    (fun j => by rw [hs hr, ← View.tableAt, htr.below_absent hr hq hl hc ha])
    (fun f hf j => by
      rw [hh] at hf
      cases hf
      rw [writeSlot_table_ne ht, update_self, View.child_zero])
    hr' p
  rw [hh, hs hr'] at hw
  exact hw

theorem Tree.ensured_plant (htr : Tree view s roots) (hr : r ∈ roots)
    (hq : view.tableAt s r q = some t) (hen : Entered view s r q) (hl : q.length < 3)
    (hc : q = [] → view.scope i) (hb : s.mem t i &&& pagePresent = 0) (hg : g ∉ s.outstanding)
    (rest : List Frame) : Ensured view roots r (i :: q) s g (s.plant t i g rest) := by
  have ha := fun {r'} (hr' : r' ∈ roots) =>
    htr.tableAt_plant hr hq hl hc hb hg rest hr'
  have ht := htr.outstanding r hr q t hq
  have hgt : g ≠ t := fun h => hg (h ▸ ht)
  have he : ∀ r' ∈ roots, ∀ p f, view.tableAt (s.plant t i g rest) r' p = some f →
      (r' = r ∧ p = i :: q ∧ f = g) ∨ view.tableAt s r' p = some f ∧ f ≠ g := by
    intro r' hr' p f hf
    rw [ha hr'] at hf
    split_ifs at hf with hs
    · exact .inl ⟨hs.1, hs.2, (Option.some.inj hf).symm⟩
    · exact .inr ⟨hf, fun h => hg (h ▸ htr.outstanding r' hr' p f hf)⟩
  refine ⟨⟨?_, ?_, ?_⟩, ⟨subset_cons_self _ _, ?_, ?_, ?_, ?_⟩, ?_, ?_⟩
  · intro r1 hr1 r2 hr2 p1 p2 f h1 h2
    rcases he r1 hr1 p1 f h1 with ⟨rfl, rfl, rfl⟩ | ⟨h1, hf⟩
    · rcases he r2 hr2 p2 f h2 with ⟨rfl, rfl, -⟩ | ⟨-, hf⟩
      · exact ⟨rfl, rfl⟩
      · exact absurd rfl hf
    · rcases he r2 hr2 p2 f h2 with ⟨-, -, h⟩ | ⟨h2, -⟩
      · exact absurd h hf
      · exact htr.separated r1 hr1 r2 hr2 p1 p2 f h1 h2
  · intro r' hr' p f hf
    rcases he r' hr' p f hf with ⟨-, -, rfl⟩ | ⟨hold, -⟩
    · exact mem_cons_self
    · exact mem_cons_of_mem _ (htr.outstanding r' hr' p f hold)
  · intro r' hr' q' t' hq' hl' j hs' hne hn k
    by_cases hs : t' = t ∧ j = i
    · obtain ⟨rfl, rfl⟩ := hs
      rw [Machine.mem_plant, writeSlot_self] at hn
      exact absurd hn (or_tableFlags_present _)
    simp only [Machine.mem_plant, writeSlot_ne hs] at hne hn ⊢
    rcases he r' hr' q' t' hq' with ⟨-, -, rfl⟩ | ⟨hq', ht'⟩
    · rw [update_self] at hne
      exact absurd rfl hne
    rw [update_of_ne ht'] at hne hn ⊢
    have hz := htr.dormant r' hr' q' t' hq' hl' j hs' hne hn
    -- the table that is written is not empty, since it was entered through a present slot
    have hta : frameOf (s.mem t' j) ≠ t := by
      intro h
      have hp : view.tableAt s r' (j :: q') = some t := by
        rw [View.tableAt, tableAt_cons hq', View.child_table hl' hs' hne, h]
      obtain ⟨rfl, rfl⟩ := htr.separated r' hr' r hr _ q t hp hq
      exact hen j q' t' rfl hq' hn
    rw [writeSlot_table_ne hta]
    by_cases hw : frameOf (s.mem t' j) = g
    · rw [hw, update_self]
    · rw [update_of_ne hw, hz]
  · intro r' hr' p f hf
    rcases he r' hr' p f hf with ⟨-, -, rfl⟩ | ⟨hold, -⟩
    · exact .inr hg
    · exact .inl hold
  · intro f hf hn
    have hft : f ≠ t := by
      rintro rfl
      exact hn q hl hq
    have hfg : f ≠ g := fun h => hg (h ▸ hf)
    rw [Machine.mem_plant, writeSlot_table_ne hft, update_of_ne hfg]
  · intro j hj
    have hrg : r ≠ g := fun h => hg (h ▸ htr.outstanding r hr [] r rfl)
    rw [Machine.mem_plant, writeSlot_ne (htr.slot_ne_of_beyond hr hq hc hj), update_of_ne hrg]
  · intro r' hr' n
    by_cases hs : r' = r ∧ tablePath n = i :: q
    · -- a page table has been created: its pages were absent or in an empty table
      rw [View.entryAt, View.entryAt, ha hr', if_pos hs]
      obtain ⟨rfl, hp⟩ := hs
      rw [map_some, getD_some, Machine.mem_plant, writeSlot_table_ne hgt,
        update_self, hp, View.tableAt, tableAt_cons hq]
      by_cases hz : s.mem t i = 0
      · rw [hz, View.child_zero]
        rfl
      · rw [View.child_table hl hc hz, map_some, getD_some,
          htr.dormant r' hr q t hq hl i hc hz hb]
    · refine View.entryAt_congr (by rw [ha hr', if_neg hs]) fun f hpa => ?_
      have hft : f ≠ t := htr.ne_of_length hr hq hr' hpa (Nat.ne_of_gt hl)
      have hfg : f ≠ g := fun h => hg (h ▸ htr.outstanding r' hr' _ f hpa)
      rw [Machine.mem_plant, writeSlot_table_ne hft, update_of_ne hfg]
  · rw [ha hr, if_pos ⟨rfl, rfl⟩]
  · intro j up f heq hf
    obtain ⟨rfl, rfl⟩ := cons.inj heq
    rw [ha hr, if_neg fun h => cons_ne_self _ _ h.2.symm, hq] at hf
    cases hf
    rw [Machine.mem_plant, writeSlot_self]
    exact or_tableFlags_present _

end EnsureTable

/-! ## Taking frames -/

variable {g t' r' k root : Frame}

theorem Machine.physAlloc_eq_ok (h : s.physAlloc = .ok (g, s')) :
    g ∉ s.outstanding ∧ s' = { s with supply := s'.supply, outstanding := g :: s.outstanding } := by
  rw [physAlloc] at h
  split at h
  · cases h
  split_ifs at h with hg
  cases h
  exact ⟨hg, rfl⟩

def outOfFrames : Fault := .kpanic "Failed to AEX::Mem::Phys::alloc()"

theorem Machine.physAlloc_error {e : Fault} (h : s.physAlloc = .error e) : e = outOfFrames := by
  rw [physAlloc] at h
  split at h
  · exact (Except.error.inj h).symm
  split_ifs at h
  exact (Except.error.inj h).symm

/-- `Phys::alloc` has this many frames left. -/
structure Stocked (n : ℕ) (s : Machine) : Prop where
  enough : n ≤ s.supply.length
  nodup : s.supply.Nodup
  unused : ∀ f ∈ s.supply, f ∉ s.outstanding

theorem Stocked.congr {n : ℕ} (h : Stocked n s) (hs : s'.supply = s.supply)
    (ho : s'.outstanding = s.outstanding) : Stocked n s' :=
  ⟨hs ▸ h.enough, hs ▸ h.nodup, by rw [hs, ho]; exact h.unused⟩

theorem Stocked.mono {m n : ℕ} (h : Stocked n s) (hm : m ≤ n) : Stocked m s :=
  ⟨hm.trans h.enough, h.nodup, h.unused⟩

theorem Stocked.physAlloc {n : ℕ} (h : Stocked (n + 1) s) :
    ∃ g s', s.physAlloc = .ok (g, s') ∧ Stocked n s' := by
  rcases s with ⟨mem, _ | ⟨g, rest⟩, outstanding⟩
  · exact absurd h.enough (Nat.not_succ_le_zero n)
  obtain ⟨hg, he⟩ := nodup_cons.mp h.nodup
  refine ⟨g, _, if_neg (h.unused g mem_cons_self), ⟨Nat.le_of_succ_le_succ h.enough, he, ?_⟩⟩
  intro f hf ho
  rcases mem_cons.mp ho with rfl | ho
  · exact hg hf
  · exact h.unused f (mem_cons_of_mem _ hf) ho

/-! ## Walking and creating tables -/

theorem Machine.ensureTable_cases {t t' : Frame} (ht : t ∈ s.outstanding)
    (h : s.ensureTable t i = .ok (t', s')) :
    (s.mem t i &&& pagePresent = 0 ∧ t' ∉ s.outstanding ∧ s' = s.plant t i t' s'.supply) ∨
      (s.mem t i &&& pagePresent ≠ 0 ∧ t' = frameOf (s.mem t i) ∧
        s' = s.write t i (s.mem t i ||| tableFlags)) := by
  rw [ensureTable] at h
  split_ifs at h with hb
  · obtain ⟨⟨g, s1⟩, ha, he⟩ := bind_eq_ok.mp h
    obtain ⟨hg, hs1⟩ := Machine.physAlloc_eq_ok ha
    have htg : t ≠ g := fun heq => hg (heq ▸ ht)
    cases he
    refine .inl ⟨hb, ?_, ?_⟩
    · rwa [mem_write, writeSlot_self, mem_write, writeSlot_self,
        frameOf_or_tableFlags, frameOf_frameAddr]
    rw [hs1]
    simp only [mem_write, writeSlot_self, frameOf_or_tableFlags, frameOf_frameAddr]
    simp only [Machine.write, Machine.fill, Machine.plant, writeSlot_writeSlot,
      update_writeSlot htg]
  · cases h
    exact .inr ⟨hb, by rw [mem_write, writeSlot_self, frameOf_or_tableFlags], rfl⟩

variable {t : Frame}

/-- **`findTableEnsure`, one level**: the slot leads to a table, and the tree has grown. -/
theorem Machine.ensureTable_spec (htr : Tree view s roots) (hr : r ∈ roots)
    (hq : view.tableAt s r q = some t) (he : Entered view s r q) (hl : q.length < 3)
    (hs : q = [] → view.scope i) (h : s.ensureTable t i = .ok (t', s')) :
    Ensured view roots r (i :: q) s t' s' := by
  rcases Machine.ensureTable_cases (htr.outstanding r hr q t hq) h with
    ⟨ha, hg, hs'⟩ | ⟨hp, rfl, rfl⟩
  · rw [hs']
    exact htr.ensured_plant hr hq he hl hs ha hg _
  · exact htr.ensured_present hr hq hl hs hp

variable {v : BitVec 64}

/-- **`findTableEnsure`**: the page table of an address exists, and the tree has grown. -/
theorem Machine.findTableEnsure_spec (htr : Tree view s roots) (hr : r ∈ roots)
    (hs : view.scope (rootSlot (pageOf v)))
    (h : s.findTableEnsure r v = .ok (t, s')) :
    Ensured view roots r (tablePath (pageOf v)) s t s' := by
  obtain ⟨⟨pdp, s1⟩, h1, he⟩ := bind_eq_ok.mp h
  obtain ⟨⟨pd, s2⟩, h2, h3⟩ := bind_eq_ok.mp he
  rw [pml4Index_eq] at h1
  rw [pdpIndex_eq] at h2
  rw [pdIndex_eq] at h3
  have e1 := Machine.ensureTable_spec htr hr (q := []) rfl Entered.nil (by decide) (fun _ => hs) h1
  have e2 := Machine.ensureTable_spec e1.tree hr e1.table e1.entered (by simp)
    (fun h => absurd h (cons_ne_nil _ _)) h2
  have e3 := Machine.ensureTable_spec e2.tree hr e2.table e2.entered (by simp)
    (fun h => absurd h (cons_ne_nil _ _)) h3
  exact ⟨e3.tree, (e1.grown.trans e2.grown hr).trans e3.grown hr, e3.table, e3.entered⟩

theorem Machine.ensureTable_error {e : Fault}
    (h : s.ensureTable t i = .error e) : e = outOfFrames := by
  rw [ensureTable] at h
  split_ifs at h
  rcases bind_eq_error.mp h with ha | ⟨⟨g, s1⟩, -, he⟩
  · exact Machine.physAlloc_error ha
  · cases he

theorem Machine.findTableEnsure_error {e : Fault}
    (h : s.findTableEnsure r v = .error e) : e = outOfFrames := by
  rcases bind_eq_error.mp h with h1 | ⟨⟨pdp, s1⟩, -, he⟩
  · exact Machine.ensureTable_error h1
  rcases bind_eq_error.mp he with h2 | ⟨⟨pd, s2⟩, -, h3⟩
  · exact Machine.ensureTable_error h2
  · exact Machine.ensureTable_error h3

theorem Stocked.ensureTable {n : ℕ} (h : Stocked (n + 1) s) (t : Frame) (i : Index) :
    ∃ t' s', s.ensureTable t i = .ok (t', s') ∧ Stocked n s' := by
  rw [Machine.ensureTable]
  split_ifs
  · obtain ⟨g, s1, ha, hs1⟩ := h.physAlloc
    rw [ha, ok_bind]
    exact ⟨_, _, rfl, hs1.congr rfl rfl⟩
  · exact ⟨_, _, rfl, (h.mono n.le_succ).congr rfl rfl⟩

theorem Stocked.findTableEnsure {n : ℕ} (h : Stocked (n + 3) s) (root : Frame) (v : BitVec 64) :
    ∃ t s', s.findTableEnsure root v = .ok (t, s') ∧ Stocked n s' := by
  obtain ⟨pdp, s1, h1, hs1⟩ := h.ensureTable root (pml4Index v)
  obtain ⟨pd, s2, h2, hs2⟩ := hs1.ensureTable pdp (pdpIndex v)
  obtain ⟨pt, s3, h3, hs3⟩ := hs2.ensureTable pd (pdIndex v)
  refine ⟨pt, s3, ?_, hs3⟩
  simp only [Machine.findTableEnsure, h1, h2, h3, ok_bind]

theorem View.tableAt_slot (hq : view.tableAt s r q = some t)
    (hl : q.length < 3) (hs : q = [] → view.scope i) :
    view.tableAt s r (i :: q) = if s.mem t i = 0 then none else some (frameOf (s.mem t i)) := by
  rw [View.tableAt, tableAt_cons hq]
  split_ifs with hz
  · rw [hz, View.child_zero]
  · exact View.child_table hl hs hz

theorem findTable_eq (view : View) (s : Machine) (root : Frame)
    (hs : view.scope (rootSlot (pageOf v))) :
    findTable s.mem root v = if view.tableAt s root [pml4Index v] = none then .error 0x8000000000#64
      else if view.tableAt s root [pdpIndex v, pml4Index v] = none then .error 0x40000000#64
      else (view.tableAt s root (tablePath (pageOf v))).elim (.error 0x200000#64) .ok := by
  rw [← pml4Index_eq] at hs
  rw [findTable, tablePath, ← pml4Index_eq, ← pdpIndex_eq, ← pdIndex_eq]
  have h1 : view.tableAt s root [pml4Index v] = _ :=
    View.tableAt_slot (q := []) rfl (by simp) fun _ => hs
  by_cases hpm4 : s.mem root (pml4Index v) = 0
  · rw [if_pos hpm4, h1, if_pos hpm4, if_pos rfl]
  rw [if_neg hpm4] at h1
  simp only [if_neg hpm4, h1, reduceCtorEq, if_false]
  have h2 := View.tableAt_slot h1 (by simp) (i := pdpIndex v) (by simp)
  by_cases hp : s.mem (frameOf (s.mem root (pml4Index v))) (pdpIndex v) = 0
  · rw [if_pos hp, h2, if_pos hp, if_pos rfl]
  rw [if_neg hp] at h2
  simp only [if_neg hp, h2, reduceCtorEq, if_false,
    View.tableAt_slot h2 (by simp) (i := pdIndex v) (by simp)]
  split_ifs
  · rfl
  · rfl

theorem findTable_toOption (view : View) (s : Machine) (root : Frame)
    (hs : view.scope (rootSlot (pageOf v))) :
    (findTable s.mem root v).toOption = view.tableAt s root (tablePath (pageOf v)) := by
  rw [findTable_eq view s root hs]
  split_ifs with h1 h2
  · rw [pml4Index_eq] at h1
    exact (tableAt_cons_of_none (tableAt_cons_of_none h1)).symm
  · rw [pml4Index_eq, pdpIndex_eq] at h2
    exact (tableAt_cons_of_none h2).symm
  cases view.tableAt s root (tablePath (pageOf v)) with
  | none => rfl
  | some t => rfl

/-! ## Writing page entries -/

theorem rawofInternal_eq (view : View) (s : Machine) (root : Frame)
    (hs : view.scope (rootSlot (pageOf v))) :
    rawofInternal s.mem root v = view.entryAt s root (pageOf v) := by
  have hm : view.scope (rootSlot (pageOf (v &&& memPageMask))) := by
    rwa [pageOf_and_memPageMask]
  have hf := findTable_toOption view s root hm
  rw [pageOf_and_memPageMask] at hf
  rw [rawofInternal, View.entryAt, ← hf, ptIndex_eq]
  cases findTable s.mem root (v &&& memPageMask) with
  | error skip => rfl
  | ok table => rfl

section SetPage

section

variable (htr : Tree view s roots)
include htr

theorem Tree.tableAt_setPage (hr : r ∈ roots) (ht : view.tableAt s r (tablePath n) = some t)
    (e : Entry) (hr' : r' ∈ roots) (p : List Index) :
    view.tableAt (s.write t (pageSlot n) e) r' p =
      if r' = r ∧ p = pageSlot n :: tablePath n then view.child (pageSlot n :: tablePath n) e
      else view.tableAt s r' p := by
  refine tableAt_writeSlot htr.separated hr ht (pageSlot n) e (fun j => ?_) (fun g _ j => ?_) hr' p
  · cases hp : view.tableAt s r (pageSlot n :: tablePath n) with
    | none => exact tableAt_cons_of_none hp
    | some f => rw [tableAt_cons hp, View.child_leaf (by simp [tablePath])]
  · exact View.child_leaf (by simp [tablePath]) _

theorem Tree.entryAt_setPage (hr : r ∈ roots) (ht : view.tableAt s r (tablePath n) = some t)
    (e : Entry) (hr' : r' ∈ roots) (m : PageNumber) :
    view.entryAt (s.write t (pageSlot n) e) r' m =
      if r' = r ∧ m = n then e else view.entryAt s r' m := by
  have hl : tablePath m ≠ pageSlot n :: tablePath n := fun h => by
    have := congrArg length h
    simp [tablePath] at this
  have hs : view.tableAt (s.write t (pageSlot n) e) r' (tablePath m) =
      view.tableAt s r' (tablePath m) := by
    rw [htr.tableAt_setPage hr ht e hr', if_neg fun h => hl h.2]
  split_ifs with ha
  · obtain ⟨rfl, rfl⟩ := ha
    rw [View.entryAt, hs, ht, map_some, getD_some, mem_write, writeSlot_self]
  refine View.entryAt_congr hs fun f hm => ?_
  rw [mem_write, writeSlot_ne]
  rintro ⟨rfl, hsl⟩
  obtain ⟨rfl, hp⟩ := htr.separated r' hr' r hr _ _ f hm ht
  exact ha ⟨rfl, page_ext hp hsl⟩

theorem Tree.setPage (hr : r ∈ roots) (ht : view.tableAt s r (tablePath n) = some t)
    (hen : Entered view s r (tablePath n))
    (he : view.owned (pageSlot n :: tablePath n) e → Spare view roots s (frameOf e)) :
    Tree view (s.write t (pageSlot n) e) roots := by
  have ha := fun {r'} (hr' : r' ∈ roots) => htr.tableAt_setPage hr ht e hr'
  have hre : ∀ r' ∈ roots, ∀ p f, view.tableAt (s.write t (pageSlot n) e) r' p = some f →
      (r' = r ∧ p = pageSlot n :: tablePath n ∧ Spare view roots s f) ∨
        view.tableAt s r' p = some f := by
    intro r' hr' p f hf
    rw [ha hr'] at hf
    split_ifs at hf with hsl
    · obtain ⟨ho, hfr⟩ := ite_none_right_eq_some.mp hf
      exact .inl ⟨hsl.1, hsl.2, Option.some.inj hfr ▸ he ho⟩
    · exact .inr hf
  refine ⟨?_, ?_, ?_⟩
  · intro r1 hr1 r2 hr2 p1 p2 f h1 h2
    rcases hre r1 hr1 p1 f h1 with ⟨rfl, rfl, hs⟩ | h1
    · rcases hre r2 hr2 p2 f h2 with ⟨rfl, rfl, -⟩ | h2
      · exact ⟨rfl, rfl⟩
      · exact absurd h2 (hs.2 r2 hr2 p2)
    · rcases hre r2 hr2 p2 f h2 with ⟨-, -, hs⟩ | h2
      · exact absurd h1 (hs.2 r1 hr1 p1)
      · exact htr.separated r1 hr1 r2 hr2 p1 p2 f h1 h2
  · intro r' hr' p f hf
    rcases hre r' hr' p f hf with ⟨-, -, hs⟩ | hold
    · exact hs.1
    · exact htr.outstanding r' hr' p f hold
  intro r' hr' q t' hq hl i hc hne hn j
  rw [ha hr', if_neg] at hq
  swap
  · rintro ⟨-, rfl⟩
    simp [tablePath] at hl
  have htt : t' ≠ t := htr.ne_of_length hr ht hr' hq (Nat.ne_of_lt hl)
  simp only [mem_write, writeSlot_table_ne htt] at hne hn ⊢
  -- the page table that is written was entered through a present slot
  have hta : frameOf (s.mem t' i) ≠ t := by
    intro h
    have hp : view.tableAt s r' (i :: q) = some t := by
      rw [View.tableAt, tableAt_cons hq, View.child_table hl hc hne, h]
    obtain ⟨rfl, heq⟩ := htr.separated r' hr' r hr _ _ t hp ht
    exact hen i q t' heq.symm hq hn
  rw [writeSlot_table_ne hta]
  exact htr.dormant r' hr' q t' hq hl i hc hne hn j

end

end SetPage

def pagePath (n : PageNumber) : List Index := pageSlot n :: tablePath n

theorem View.tableAt_pagePath (view : View) (s : Machine) (r : Frame) (n : PageNumber) :
    view.tableAt s r (pagePath n) =
      if view.owned (pagePath n) (view.entryAt s r n) then some (frameOf (view.entryAt s r n))
      else none := by
  rw [View.entryAt]
  cases ht : view.tableAt s r (tablePath n) with
  | none =>
    rw [map_none, getD_none, view.owned_zero]
    exact tableAt_cons_of_none ht
  | some t => exact tableAt_cons ht (pageSlot n)

/-- The entry of a page has been set. -/
structure PageSet (view : View) (roots : Set Frame) (r : Frame) (n : PageNumber) (e : Entry)
    (s s' : Machine) : Prop where
  tree : Tree view s' roots
  outstanding : s.outstanding ⊆ s'.outstanding
  reached : ∀ r' ∈ roots, ∀ p f, view.tableAt s' r' p = some f →
    view.tableAt s r' p = some f ∨ f ∉ s.outstanding ∨
      view.owned (pagePath n) e ∧ f = frameOf e
  frame : ∀ f ∈ s.outstanding, (∀ q, q.length < 4 → view.tableAt s r q ≠ some f) →
    s'.mem f = s.mem f
  beyond : ∀ i, ¬ view.scope i → s'.mem r i = s.mem r i
  entries : ∀ r' ∈ roots, ∀ m, view.entryAt s' r' m =
    if r' = r ∧ m = n then e else view.entryAt s r' m

theorem Ensured.pageSet (h : Ensured view roots r (tablePath n) s t s') (hr : r ∈ roots)
    (he : view.owned (pagePath n) e → Spare view roots s (frameOf e)) :
    PageSet view roots r n e s (s'.write t (pageSlot n) e) where
  tree := h.tree.setPage hr h.table h.entered fun ho => h.grown.spare (he ho)
  outstanding := h.grown.outstanding
  reached r' hr' p f hf := by
    rw [h.tree.tableAt_setPage hr h.table e hr'] at hf
    split_ifs at hf with hs
    · obtain ⟨ho, hfr⟩ := ite_none_right_eq_some.mp hf
      exact .inr (.inr ⟨ho, (some.inj hfr).symm⟩)
    · exact (h.grown.reached r' hr' p f hf).imp_right .inl
  frame f hf hn := by
    have ht : f ≠ t := by
      rintro rfl
      rcases h.grown.reached r hr _ f h.table with hold | hw
      · exact hn _ (by simp [tablePath]) hold
      · exact hw hf
    rw [mem_write, writeSlot_table_ne ht]
    exact h.grown.frame f hf fun q hq => hn q (hq.trans (by decide))
  beyond i hi := by
    have hrt : r ≠ t := h.tree.ne_of_length hr h.table hr (p := []) rfl (by simp [tablePath])
    rw [mem_write, writeSlot_table_ne hrt, h.grown.beyond i hi]
  entries r' hr' m := by
    rw [h.tree.entryAt_setPage hr h.table e hr', h.grown.entries r' hr']

theorem PageSet.spare (h : PageSet view roots r n e s s')
    (hf : Spare view roots s f) (he : view.owned (pagePath n) e → f ≠ frameOf e) :
    Spare view roots s' f := by
  refine ⟨h.outstanding hf.1, fun r' hr' p hp => ?_⟩
  rcases h.reached r' hr' p f hp with hold | hn | ⟨ho, heq⟩
  · exact hf.2 r' hr' p hold
  · exact hn hf.1
  · exact he ho heq

theorem PageSet.mem_spare (h : PageSet view roots r n e s s')
    (hr : r ∈ roots) (hf : Spare view roots s f) : s'.mem f = s.mem f :=
  h.frame f hf.1 fun q _ => hf.2 r hr q

theorem Ensured.keep (h : Ensured view roots r q s t s)
    (hq : q.length ≤ 3) (htr : Tree view s' roots)
    (hm : ∀ up f, up.length < 3 → view.tableAt s r up = some f → s'.mem f = s.mem f) :
    Ensured view roots r q s' t s' where
  tree := htr
  grown := Extends.refl
  table := (tableAt_congr_above hm hq).trans h.table
  entered i up f he hf := by
    have hu : up.length < 3 := by
      rw [he] at hq
      exact hq
    have hf : view.tableAt s r up = some f := (tableAt_congr_above hm hu.le).symm.trans hf
    rw [hm up f hu hf]
    exact h.entered i up f he hf

theorem Machine.assign_spec (htr : Tree view s roots) (hr : r ∈ roots) {v p : BitVec 64}
    {flags : BitVec 16} (hs : view.scope (rootSlot (pageOf v)))
    (ho : view.owned (pagePath (pageOf v)) (assigned p flags) →
      Spare view roots s (frameOf (assigned p flags)))
    (h : s.assign r v p flags = .ok s') :
    PageSet view roots r (pageOf v) (assigned p flags) s s' := by
  obtain ⟨⟨t, s1⟩, hf, he⟩ := bind_eq_ok.mp h
  cases he
  have hn := Machine.findTableEnsure_spec htr hr (by rwa [pageOf_and_memPageMask]) hf
  rw [pageOf_and_memPageMask] at hn
  rw [ptIndex_eq, pageOf_and_memPageMask]
  exact hn.pageSet hr ho

theorem Stocked.assign {n : ℕ} (h : Stocked (n + 3) s) (root : Frame) (v p : BitVec 64)
    (flags : BitVec 16) : ∃ s', s.assign root v p flags = .ok s' ∧ Stocked n s' := by
  obtain ⟨t, s1, hf, hs1⟩ := h.findTableEnsure root (v &&& memPageMask)
  refine ⟨s1.write t (ptIndex (v &&& memPageMask)) (Machine.assigned p flags), ?_,
    hs1.congr rfl rfl⟩
  simp only [Machine.assign, hf, ok_bind, pure_eq_ok]

theorem Machine.create_eq_ok (h : s.create k = .ok (root, s')) :
    root ∉ s.outstanding ∧ s'.outstanding = root :: s.outstanding ∧
      s'.mem = update s.mem root fun i => if i < 256#9 then 0 else s.mem k i := by
  obtain ⟨⟨g, s1⟩, ha, hp⟩ := bind_eq_ok.mp h
  obtain ⟨hg, hs1⟩ := Machine.physAlloc_eq_ok ha
  cases hp
  rw [hs1]
  exact ⟨hg, rfl, rfl⟩

variable {map : Pagemap}

/-- **`unassign`** clears the entry of its page and returns the frame that the entry owned. -/
theorem Machine.unassign_spec (htr : Tree view s roots) (hr : map.pageRoot ∈ roots)
    (hc : view.scope (rootSlot (pageOf v))) {addr : BitVec 64}
    (h : s.unassign map v = .ok (addr, s')) :
    PageSet view roots map.pageRoot (pageOf v) 0 s s' ∧
      addr = if view.entryAt s map.pageRoot (pageOf v) &&& pageNophys ≠ 0 then 0
        else view.entryAt s map.pageRoot (pageOf v) &&& memPageMask := by
  rw [unassign] at h
  split_ifs at h
  obtain ⟨⟨t, s1⟩, hf, hs⟩ := bind_eq_ok.mp h
  cases hs
  have he := Machine.findTableEnsure_spec htr hr (by rwa [pageOf_and_memPageMask]) hf
  rw [pageOf_and_memPageMask] at he
  have hn : view.entryAt s map.pageRoot (pageOf v) = s1.mem t (pageSlot (pageOf v)) := by
    rw [← he.grown.entries _ hr, View.entryAt, he.table]
    rfl
  rw [ptIndex_eq, pageOf_and_memPageMask, hn]
  refine ⟨he.pageSet hr fun h => ?_, rfl⟩
  rw [view.owned_zero] at h
  cases h

theorem Stocked.unassign {n : ℕ} (h : Stocked (n + 3) s) (hs : map.vstart ≤ v)
    (he : v ≤ map.vend) : ∃ addr s', s.unassign map v = .ok (addr, s') ∧ Stocked n s' := by
  obtain ⟨t, s1, hf, hs1⟩ := h.findTableEnsure map.pageRoot (v &&& memPageMask)
  rw [Machine.unassign, if_neg (BitVec.not_lt.mpr hs), if_neg (BitVec.not_lt.mpr he)]
  simp only [hf, ok_bind, pure_eq_ok, Except.ok.injEq, Prod.mk.injEq]
  exact ⟨_, _, ⟨rfl, rfl⟩, hs1.congr rfl rfl⟩

end AexKernel.Mem
