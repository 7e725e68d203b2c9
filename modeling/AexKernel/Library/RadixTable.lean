import Mathlib

/-! # Trees of tables in memory

A memory holds tables, which are functions from indices to entries. -/

namespace AexKernel.Library

open List Function Option
universe u v w

variable {F : Type u} {I : Type v} {E : Type w}

/-- The table that a path leads to. -/
def tableAt (child : List I → E → Option F) (mem : F → I → E) (root : F) : List I → Option F
  | [] => some root
  | i :: up => (tableAt child mem root up).bind fun f => child (i :: up) (mem f i)

/-- No table is reached from two roots or by two paths. -/
def Separated (child : List I → E → Option F) (mem : F → I → E) (roots : Set F) : Prop :=
  ∀ r ∈ roots, ∀ r' ∈ roots, ∀ p p' f, tableAt child mem r p = some f →
    tableAt child mem r' p' = some f → r = r' ∧ p = p'

/-- No root reaches the table. -/
def Unreached (child : List I → E → Option F) (mem : F → I → E) (roots : Set F) (f : F) : Prop :=
  ∀ r ∈ roots, ∀ p, tableAt child mem r p ≠ some f

variable {child : List I → E → Option F} {mem mem' : F → I → E} {roots : Set F}
  {root f g r t r' : F} {up p q p' : List I}

theorem tableAt_cons (h : tableAt child mem root up = some f) (i : I) :
    tableAt child mem root (i :: up) = child (i :: up) (mem f i) := by
  rw [tableAt, h, bind_some]

variable {i j : I}

theorem exists_of_tableAt_cons (h : tableAt child mem root (i :: up) = some g) :
    ∃ f, tableAt child mem root up = some f ∧ child (i :: up) (mem f i) = some g :=
  bind_eq_some_iff.mp h

theorem tableAt_cons_of_none (h : tableAt child mem root up = none) :
    tableAt child mem root (i :: up) = none := by
  rw [tableAt, h, bind_none]

theorem exists_tableAt_of_append (h : tableAt child mem root (p ++ q) = some g) :
    ∃ f, tableAt child mem root q = some f := by
  induction p generalizing g with
  | nil => exact ⟨g, h⟩
  | cons i p ih =>
    obtain ⟨f, hf, -⟩ := exists_of_tableAt_cons h
    exact ih hf

theorem tableAt_congr (h : ∀ up f, up.length < p.length → tableAt child mem root up = some f →
    ∀ i, child (i :: up) (mem' f i) = child (i :: up) (mem f i)) :
    tableAt child mem' root p = tableAt child mem root p := by
  induction p with
  | nil => rfl
  | cons i up ih =>
    have ih := ih fun up' f hl => h up' f (Nat.lt_succ_of_lt hl)
    cases hu : tableAt child mem root up with
    | none => rw [tableAt_cons_of_none hu, tableAt_cons_of_none (ih.trans hu)]
    | some f => rw [tableAt_cons hu, tableAt_cons (ih.trans hu), h up f (Nat.lt_succ_self _) hu]

theorem tableAt_congr_above {n : ℕ}
    (h : ∀ up f, up.length < n → tableAt child mem root up = some f → mem' f = mem f)
    (hp : p.length ≤ n) : tableAt child mem' root p = tableAt child mem root p :=
  tableAt_congr fun up f hl hu i => by rw [h up f (hl.trans_le hp) hu]

theorem Separated.congr (hs : Separated child mem roots)
    (h : ∀ r ∈ roots, ∀ p, tableAt child mem' r p = tableAt child mem r p) :
    Separated child mem' roots := fun r hr r' hr' p p' f hp hp' =>
  hs r hr r' hr' p p' f (h r hr p ▸ hp) (h r' hr' p' ▸ hp')

theorem Separated.eq_of_tableAt (hs : Separated child mem roots) (hr : r ∈ roots)
    (hp : tableAt child mem r p = some f) (hp' : tableAt child mem r p' = some f) : p = p' :=
  (hs r hr r hr p p' f hp hp').2

theorem tableAt_blank (hb : ∀ i, child [i] (mem root i) = none)
    (h : tableAt child mem root p = some f) : p = [] ∧ f = root := by
  induction p generalizing f with
  | nil => exact ⟨rfl, (Option.some.inj h).symm⟩
  | cons i up ih =>
    obtain ⟨g, hg, hf⟩ := exists_of_tableAt_cons h
    obtain ⟨rfl, rfl⟩ := ih hg
    rw [hb] at hf
    cases hf

theorem Separated.insert (hs : Separated child mem roots) (hn : Unreached child mem roots root)
    (hb : ∀ i, child [i] (mem root i) = none) : Separated child mem (insert root roots) := by
  intro r hr r' hr' p p' f hp hp'
  rcases hr with rfl | hr <;> rcases hr' with rfl | hr'
  · exact ⟨rfl, (tableAt_blank hb hp).1.trans (tableAt_blank hb hp').1.symm⟩
  · exact absurd ((tableAt_blank hb hp).2 ▸ hp') (hn r' hr' p')
  · exact absurd ((tableAt_blank hb hp').2 ▸ hp) (hn r hr p)
  · exact hs r hr r' hr' p p' f hp hp'

section Writes

variable [DecidableEq F] [DecidableEq I]

/-- The memory after a write to a slot. -/
def writeSlot (mem : F → I → E) (f : F) (i : I) (e : E) : F → I → E :=
  Function.update mem f (Function.update (mem f) i e)

@[simp] theorem writeSlot_self (mem : F → I → E) (f : F) (i : I) (e : E) :
    writeSlot mem f i e f i = e := by
  rw [writeSlot, update_self, update_self]

theorem writeSlot_table_ne (h : g ≠ f) (mem : F → I → E) (i : I) (e : E) :
    writeSlot mem f i e g = mem g := update_of_ne h _ _

theorem writeSlot_ne (h : ¬ (g = f ∧ j = i)) (mem : F → I → E) (e : E) :
    writeSlot mem f i e g j = mem g j := by
  by_cases hg : g = f
  · subst hg
    rw [writeSlot, update_self, update_of_ne fun hj => h ⟨rfl, hj⟩]
  · rw [writeSlot_table_ne hg]

theorem writeSlot_writeSlot (mem : F → I → E) (f : F) (i : I) (e e' : E) :
    writeSlot (writeSlot mem f i e) f i e' = writeSlot mem f i e' := by
  simp only [writeSlot, update_self, update_idem]

theorem update_writeSlot (h : f ≠ g) (mem : F → I → E) (i : I) (e : E) (words : I → E) :
    update (writeSlot mem f i e) g words =
      writeSlot (update mem g words) f i e := by
  rw [writeSlot, writeSlot, update_of_ne h, update_comm h]

omit [DecidableEq I] in
theorem tableAt_update (hf : Unreached child mem roots f) (words : I → E) (hr : r ∈ roots)
    (p : List I) : tableAt child (update mem f words) r p = tableAt child mem r p := by
  refine tableAt_congr fun up g _ hg i => ?_
  have hn : g ≠ f := by
    rintro rfl
    exact hf r hr up hg
  rw [update_of_ne hn]

/-- **A write to a slot changes the tree at that slot only**. -/
theorem tableAt_writeSlot (hse : Separated child mem roots) (hr : r ∈ roots)
    (hq : tableAt child mem r q = some t) (i : I) (e : E)
    (hold : ∀ j, tableAt child mem r (j :: i :: q) = none)
    (hn : ∀ g, child (i :: q) e = some g → ∀ j, child (j :: i :: q) (writeSlot mem t i e g j) =
      none)
    (hr' : r' ∈ roots) (p : List I) :
    tableAt child (writeSlot mem t i e) r' p =
      if r' = r ∧ p = i :: q then child (i :: q) e else tableAt child mem r' p := by
  induction p with
  | nil => rw [if_neg (fun h => cons_ne_nil _ _ h.2.symm), tableAt, tableAt]
  | cons j up ih =>
    rw [tableAt, ih]
    by_cases hb : r' = r ∧ up = i :: q
    · -- below the slot that is written nothing is reached
      obtain ⟨rfl, rfl⟩ := hb
      rw [if_pos ⟨rfl, rfl⟩, if_neg (fun h => cons_ne_self _ _ (cons.inj h.2).2), hold]
      cases hc : child (i :: q) e with
      | none => rfl
      | some g => exact hn g hc j
    rw [if_neg hb]
    cases hu : tableAt child mem r' up with
    | none =>
      rw [if_neg, tableAt_cons_of_none hu, bind_none]
      rintro ⟨rfl, he⟩
      obtain ⟨rfl, rfl⟩ := cons.inj he
      cases hu.symm.trans hq
    | some f =>
      rw [tableAt_cons hu, bind_some]
      by_cases hs : f = t ∧ j = i
      · obtain ⟨rfl, rfl⟩ := hs
        obtain ⟨rfl, rfl⟩ := hse r' hr' r hr up q f hu hq
        rw [if_pos ⟨rfl, rfl⟩, writeSlot_self]
      rw [writeSlot_ne hs, if_neg]
      rintro ⟨rfl, he⟩
      obtain ⟨rfl, rfl⟩ := cons.inj he
      exact hs ⟨Option.some.inj (hu.symm.trans hq), rfl⟩

end Writes

end AexKernel.Library
