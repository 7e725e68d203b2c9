import Mathlib.Data.List.Chain
import Mathlib.Data.List.Nodup
import Mathlib.Logic.Function.Basic

/-! # Doubly linked rings

Nodes that are linked to a ring by two fields, with a pointer to the first node and one to the last.
-/

namespace AexKernel.Library

open List Function Option

/-- The fields of all nodes, of the ring or not, and the ends of the ring. -/
structure LinkedRing (α : Type*) where
  next : α → Option α
  prev : α → Option α
  head : α
  tail : α

namespace LinkedRing

variable {α : Type*} {r : LinkedRing α} {l : List α} {p n x y z : α}

/-- `y` comes after `x`. -/
def Adjacent (r : LinkedRing α) (x y : α) : Prop := r.next x = some y ∧ r.prev y = some x

/-- The nodes of the list come one after the other, and the first one after the last. -/
def IsCycle (r : LinkedRing α) (l : List α) : Prop :=
  l.IsChain r.Adjacent ∧ ∀ x ∈ l.getLast?, ∀ y ∈ l.head?, r.Adjacent x y

variable {l1 l2 : List α}

theorem IsCycle.rotate (h : r.IsCycle (l1 ++ l2)) : r.IsCycle (l2 ++ l1) := by
  cases l1 with
  | nil => simpa using h
  | cons a m1 =>
    cases l2 with
    | nil => simpa using h
    | cons b m2 =>
      obtain ⟨hc, hl⟩ := h
      obtain ⟨hch1, hch2, hj⟩ := isChain_append.mp hc
      refine ⟨isChain_append.mpr ⟨hch2, hch1, fun x hx y hy => ?_⟩, fun x hx y hy => ?_⟩
      · exact hl x (by rwa [getLast?_append_of_ne_nil _ (cons_ne_nil b m2)]) y hy
      · exact hj x (by rwa [getLast?_append_of_ne_nil _ (cons_ne_nil a m1)] at hx) y hy

/-- The ring of the nodes of the list. -/
structure Holds (r : LinkedRing α) (l : List α) : Prop where
  nodup : l.Nodup
  head : l.head? = some r.head
  tail : l.getLast? = some r.tail
  cycle : r.IsCycle l

namespace Holds

section

variable (h : r.Holds l)
include h

theorem head_mem : r.head ∈ l := mem_of_mem_head? h.head

theorem tail_mem : r.tail ∈ l := mem_of_mem_getLast? h.tail

theorem exists_next (hx : x ∈ l) : ∃ y ∈ l, r.Adjacent x y := by
  obtain ⟨l1, l2, rfl⟩ := append_of_mem hx
  cases l2 with
  | nil => exact ⟨r.head, h.head_mem, h.cycle.2 x (by simp) r.head h.head⟩
  | cons y m =>
    have hc := (isChain_append.mp h.cycle.1).2.1
    exact ⟨y, by simp, (isChain_cons_cons.mp hc).1⟩

theorem next_mem (hx : x ∈ l) (hn : r.next x = some y) : y ∈ l := by
  obtain ⟨z, hz, ha⟩ := h.exists_next hx
  exact Option.some.inj (hn.symm.trans ha.1) ▸ hz

theorem exists_prev (hy : y ∈ l) : ∃ x ∈ l, r.Adjacent x y := by
  obtain ⟨l1, l2, rfl⟩ := append_of_mem hy
  cases l1 using reverseRecOn with
  | nil => exact ⟨r.tail, h.tail_mem, h.cycle.2 r.tail h.tail y rfl⟩
  | append_singleton m x =>
    have hc := h.cycle.1
    rw [append_assoc] at hc
    exact ⟨x, by simp, (isChain_cons_cons.mp (isChain_append.mp hc).2.1).1⟩

theorem next_eq_iff (hx : x ∈ l) (hy : y ∈ l) : r.next x = some y ↔ r.prev y = some x := by
  constructor
  · intro hn
    obtain ⟨z, -, ha⟩ := h.exists_next hx
    obtain rfl : y = z := Option.some.inj (hn.symm.trans ha.1)
    exact ha.2
  intro hp
  obtain ⟨z, -, ha⟩ := h.exists_prev hy
  obtain rfl : x = z := Option.some.inj (hp.symm.trans ha.2)
  exact ha.1

theorem prev_head : r.prev r.head = some r.tail :=
  (h.cycle.2 r.tail h.tail r.head h.head).2

theorem congr {r' : LinkedRing α} (hn : ∀ x ∈ l, r'.next x = r.next x)
    (hp : ∀ x ∈ l, r'.prev x = r.prev x) (hh : r'.head = r.head) (ht : r'.tail = r.tail) :
    r'.Holds l where
  nodup := h.nodup
  head := hh ▸ h.head
  tail := ht ▸ h.tail
  cycle := by
    have ha : ∀ x ∈ l, ∀ y ∈ l, r.Adjacent x y → r'.Adjacent x y := fun x hx y hy ha =>
      ⟨(hn x hx).trans ha.1, (hp y hy).trans ha.2⟩
    refine ⟨h.cycle.1.imp_of_mem_imp fun x y hx hy => ha x hx y hy, fun x hx y hy => ?_⟩
    exact ha x (mem_of_mem_getLast? hx) y (mem_of_mem_head? hy) (h.cycle.2 x hx y hy)

end

end Holds

/-- The nodes that are met from `x` on by following `next`, at most so many. -/
def follow (r : LinkedRing α) : ℕ → α → List α
  | 0, _ => []
  | k + 1, x =>
    x :: match r.next x with
      | some y => follow r k y
      | none => []

theorem follow_of_isChain (h : (x :: l).IsChain r.Adjacent) :
    r.follow (x :: l).length x = x :: l := by
  induction l generalizing x with
  | nil =>
    rw [length_singleton, follow]
    cases r.next x <;> rfl
  | cons y m ih =>
    obtain ⟨ha, hr⟩ := isChain_cons_cons.mp h
    rw [length_cons, follow, ha.1]
    exact congrArg (x :: ·) (ih hr)

theorem Holds.follow (h : r.Holds l) : r.follow l.length r.head = l := by
  obtain ⟨m, rfl⟩ : ∃ m, l = r.head :: m := ⟨_, eq_cons_of_mem_head? h.head⟩
  exact follow_of_isChain h.cycle.1

theorem follow_of_isChain_next (h : (x :: l).IsChain r.Adjacent)
    (hl : ∀ z ∈ (x :: l).getLast?, r.next z = some y) :
    r.follow ((x :: l).length + 1) x = x :: l ++ [y] := by
  induction l generalizing x with
  | nil =>
    rw [length_singleton, follow, hl x rfl]
    dsimp only
    rw [follow]
    cases r.next y <;> rfl
  | cons z m ih =>
    obtain ⟨hd, hr⟩ := isChain_cons_cons.mp h
    rw [length_cons, follow, hd.1]
    exact congrArg (x :: ·) (ih hr fun a ha => hl a (by rwa [getLast?_cons_cons]))

/-- What a ring of `size` nodes looks like from its head. -/
structure InOrder (r : LinkedRing α) (size : ℕ) (l : List α) : Prop where
  length : l.length = size
  nodup : l.Nodup
  visits : r.follow (size + 1) r.head = l ++ [r.head]
  inverse : ∀ x ∈ l, ∀ y ∈ l, r.next x = some y ↔ r.prev y = some x
  tail : r.prev r.head = some r.tail ∧ l.getLast? = some r.tail

theorem Holds.inOrder (h : r.Holds l) {size : ℕ} (hs : l.length = size) : r.InOrder size l where
  length := hs
  nodup := h.nodup
  visits := by
    obtain ⟨m, hm⟩ : ∃ m, l = r.head :: m := ⟨_, eq_cons_of_mem_head? h.head⟩
    rw [← hs, hm]
    exact follow_of_isChain_next (hm ▸ h.cycle.1) fun z hz =>
      (h.cycle.2 z (hm ▸ hz) r.head h.head).1
  inverse := fun _ hx _ hy => h.next_eq_iff hx hy
  tail := ⟨h.prev_head, h.tail⟩

theorem notMem_tail_of_head? (ho : l.Nodup) (hn : l.head? = some n) : n ∉ l.tail := by
  rw [eq_cons_of_mem_head? hn] at ho
  exact (nodup_cons.mp ho).1

theorem notMem_dropLast_of_getLast? (hn : l.Nodup) (hp : l.getLast? = some p) :
    p ∉ l.dropLast := by
  rw [← dropLast_append_getLast? p hp] at hn
  exact fun hm => disjoint_of_nodup_append hn hm (mem_singleton.mpr rfl)

section Operations

variable [DecidableEq α]

/-- Make `n` the node after `p`. -/
def link (r : LinkedRing α) (p n : α) : LinkedRing α :=
  { r with next := Function.update r.next p (some n), prev := Function.update r.prev n (some p) }

theorem adjacent_link (r : LinkedRing α) (p n : α) : (r.link p n).Adjacent p n :=
  ⟨update_self .., update_self ..⟩

theorem Adjacent.link (h : r.Adjacent y z) (hp : y ≠ p) (hn : z ≠ n) : (r.link p n).Adjacent y z :=
  ⟨(update_of_ne hp ..).trans h.1, (update_of_ne hn ..).trans h.2⟩

theorem isChain_link (h : l.IsChain r.Adjacent) (hp : p ∉ l.dropLast) (hn : n ∉ l.tail) :
    l.IsChain (r.link p n).Adjacent := by
  induction l with
  | nil => exact .nil
  | cons y m ih =>
    cases m with
    | nil => exact .singleton y
    | cons z m =>
      obtain ⟨ha, hr⟩ := isChain_cons_cons.mp h
      rw [dropLast_cons_cons, mem_cons, not_or] at hp
      rw [tail_cons, mem_cons, not_or] at hn
      exact isChain_cons_cons.mpr ⟨ha.link (Ne.symm hp.1) (Ne.symm hn.1), ih hr hp.2 hn.2⟩

/-- Append a node behind the last one. -/
def pushTail (r : LinkedRing α) (x : α) : LinkedRing α :=
  { (r.link r.tail x).link x r.head with tail := x }

theorem Holds.pushTail (h : r.Holds l) (hx : x ∉ l) : (r.pushTail x).Holds (l ++ [x]) where
  nodup := nodup_append.mpr ⟨h.nodup, nodup_singleton x, fun a ha b hb hab =>
    hx (mem_singleton.mp hb ▸ hab ▸ ha)⟩
  head := by rw [head?_append, h.head]; rfl
  tail := getLast?_concat
  cycle := by
    have hn : r.tail ≠ x := fun he => hx (he ▸ h.tail_mem)
    have hn' : x ≠ r.head := fun he => hx (he ▸ h.head_mem)
    have hc : l.IsChain (r.pushTail x).Adjacent :=
      isChain_link (isChain_link h.cycle.1 (notMem_dropLast_of_getLast? h.nodup h.tail)
        fun hm => hx (mem_of_mem_tail hm))
        (fun hm => hx (dropLast_subset l hm)) (notMem_tail_of_head? h.nodup h.head)
    refine ⟨isChain_append.mpr ⟨hc, .singleton x, fun a ha b hb => ?_⟩, fun a ha b hb => ?_⟩
    · obtain rfl : r.tail = a := some.inj (h.tail.symm.trans ha)
      obtain rfl : x = b := some.inj hb
      exact (adjacent_link r r.tail x).link hn hn'
    obtain rfl : x = a := some.inj (getLast?_concat.symm.trans ha)
    rw [head?_append, h.head] at hb
    obtain rfl : r.head = b := some.inj hb
    exact adjacent_link (r.link r.tail x) x r.head

theorem pushTail_next (r : LinkedRing α) (x y : α) :
    (r.pushTail x).next y
      = if y = x then some r.head else if y = r.tail then some x else r.next y := by
  change update (update r.next r.tail (some x)) x (some r.head) y = _
  rw [update_apply, update_apply]

/-- Take a node out of the ring. -/
def unlink (r : LinkedRing α) (x : α) : Option (LinkedRing α) :=
  match r.next x, r.prev x with
  | some n, some p =>
    some { r.link p n with
      head := if r.head = x then n else r.head, tail := if r.tail = x then p else r.tail }
  | _, _ => none

theorem IsCycle.link_around (h : r.IsCycle (x :: l)) (ho : l.Nodup) (hn : l.head? = some n)
    (hp : l.getLast? = some p) :
    r.next x = some n ∧ r.prev x = some p ∧ (r.link p n).IsCycle l := by
  have hl : l = n :: l.tail := eq_cons_of_mem_head? hn
  have hc : (x :: n :: l.tail).IsChain r.Adjacent := hl ▸ h.1
  have hla : (x :: l).getLast? = some p := by
    rw [hl, getLast?_cons_cons, ← hl, hp]
  refine ⟨(isChain_cons_cons.mp hc).1.1, (h.2 p hla x rfl).2, ?_, ?_⟩
  · exact isChain_link (isChain_cons.mp h.1).2 (notMem_dropLast_of_getLast? ho hp)
      (notMem_tail_of_head? ho hn)
  intro a ha b hb
  obtain rfl : p = a := Option.some.inj (hp.symm.trans ha)
  obtain rfl : n = b := Option.some.inj (hn.symm.trans hb)
  exact adjacent_link r p n

theorem Holds.unlink (h : r.Holds (l1 ++ x :: l2)) (hne : l1 ++ l2 ≠ []) :
    ∃ r', r.unlink x = some r' ∧ r'.Holds (l1 ++ l2) ∧
      (∀ y ∉ l1 ++ x :: l2, r'.next y = r.next y) ∧ ∃ n ∈ l1 ++ l2, r.next x = some n := by
  have hpe : List.Perm (l1 ++ x :: l2) (x :: (l2 ++ l1)) := perm_append_comm
  have ho : (x :: (l2 ++ l1)).Nodup := hpe.nodup_iff.mp h.nodup
  obtain ⟨hx, ho⟩ := nodup_cons.mp ho
  have hn' : l2 ++ l1 ≠ [] := fun he => hne (by simp_all)
  obtain ⟨n, hn⟩ : ∃ n, (l2 ++ l1).head? = some n := ⟨_, head?_eq_some_head hn'⟩
  obtain ⟨p, hp⟩ : ∃ p, (l2 ++ l1).getLast? = some p := ⟨_, getLast?_eq_some_getLast hn'⟩
  -- read from `x` on, the ring without `x` is what `link` closes
  obtain ⟨hnex, hr, hc⟩ := h.cycle.rotate.link_around ho hn hp
  refine ⟨_, by rw [LinkedRing.unlink, hnex, hr], ?_, fun y hy => ?_, n, ?_, hnex⟩
  · refine ⟨?_, ?_, ?_, hc.rotate⟩
    · exact (perm_append_comm).nodup_iff.mp ho
    · cases l1 with
      | nil =>
        have hh : r.head = x := (Option.some.inj h.head).symm
        rw [append_nil] at hn
        exact hn.trans (congrArg some (if_pos hh).symm)
      | cons a m =>
        have hh : r.head = a := (Option.some.inj h.head).symm
        have ha : r.head ≠ x := fun he => hx (by simp [← he, hh])
        exact congrArg some (hh.symm.trans (if_neg ha).symm)
    cases l2 using reverseRecOn with
    | nil =>
      have ht : r.tail = x := (Option.some.inj (getLast?_concat.symm.trans h.tail)).symm
      rw [append_nil]
      exact hp.trans (congrArg some (if_pos ht).symm)
    | append_singleton m b =>
      have ht : r.tail = b := by
        have ht := h.tail
        rw [← cons_append, ← append_assoc, getLast?_concat] at ht
        exact (Option.some.inj ht).symm
      have hb : r.tail ≠ x := fun he => hx (by simp [← he, ht])
      rw [← append_assoc, getLast?_concat]
      exact congrArg some (ht.symm.trans (if_neg hb).symm)
  · refine update_of_ne (fun he => hy ?_) ..
    have hm := mem_of_mem_getLast? hp
    rw [he]
    simp only [mem_append, mem_cons] at hm ⊢
    tauto
  · exact perm_append_comm.mem_iff.mp (mem_of_mem_head? hn)

end Operations

end LinkedRing

end AexKernel.Library
