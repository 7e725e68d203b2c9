import Mathlib.Data.List.Nodup
import Mathlib.Logic.Function.Basic

/-! # Singly linked queues

Cells on a heap that are linked by one field, with a pointer to the first cell and one to the last.
-/

namespace AexKernel.Library

open List Function Prod

/-- A cell of a linked queue. -/
structure Cell (α β : Type*) where
  next : Option α
  value : β
  deriving DecidableEq

/-- The cells from a pointer on, with their values. -/
inductive Linked {α β : Type*} (cells : α → Option (Cell α β)) : Option α → List (α × β) → Prop
  | nil : Linked cells none []
  | cons {a : α} {c : Cell α β} {l : List (α × β)} (cell : cells a = some c)
      (rest : Linked cells c.next l) : Linked cells (some a) ((a, c.value) :: l)

/-- The queue between two pointers. -/
structure Queue {α β : Type*} (cells : α → Option (Cell α β)) (first last : Option α)
    (l : List (α × β)) : Prop where
  linked : Linked cells first l
  last : last = (l.map Prod.fst).getLast?
  nodup : (l.map Prod.fst).Nodup

section Linked

variable {α β : Type*} [DecidableEq α] {cells : α → Option (Cell α β)} {first last : Option α}
  {l : List (α × β)} {a : α} {v : β}

section

omit [DecidableEq α]

section

variable (h : Linked cells first l)
include h

theorem Linked.head_eq : first = (l.map fst).head? := by
  cases h with
  | nil => rfl
  | cons cell rest => rfl

theorem Linked.value_of_mem (ha : (a, v) ∈ l) : ∃ next, cells a = some ⟨next, v⟩ := by
  induction h with
  | nil => cases ha
  | @cons b c l cell rest ih =>
    rcases mem_cons.mp ha with he | hm
    · cases he
      exact ⟨c.next, cell⟩
    · exact ih hm

theorem Linked.unique {l' : List (α × β)} (h' : Linked cells first l') : l = l' := by
  induction h generalizing l' with
  | nil =>
    cases h'
    rfl
  | @cons b c l cell rest ih =>
    cases h' with
    | cons cell' rest' =>
      cases cell.symm.trans cell'
      rw [ih rest']

end

end

theorem Linked.update (h : Linked cells first l) (ha : a ∉ l.map fst) (c : Option (Cell α β)) :
    Linked (update cells a c) first l := by
  induction h with
  | nil => exact .nil
  | @cons b d l cell rest ih =>
    rw [map_cons, mem_cons, not_or] at ha
    refine .cons ?_ (ih ha.2)
    rw [update_of_ne (Ne.symm ha.1)]
    exact cell

theorem Linked.link {x : α} (h : Linked cells first l) (hx : (l.map fst).getLast? = some x)
    (hn : (l.map fst).Nodup) (he : cells a = some ⟨none, v⟩) (ha : a ∉ l.map fst) :
    ∃ c, cells x = some c ∧
      Linked (Function.update cells x (some { c with next := some a })) first (l ++ [(a, v)]) := by
  induction h with
  | nil => cases hx
  | @cons b d l cell rest ih =>
    rw [map_cons, mem_cons, not_or] at ha
    obtain ⟨hb, hn⟩ := nodup_cons.mp hn
    cases l with
    | nil =>
      obtain rfl : b = x := Option.some.inj hx
      refine ⟨d, cell, .cons (c := { d with next := some a }) (update_self ..) ?_⟩
      refine .cons (c := ⟨none, v⟩) ?_ .nil
      rw [update_of_ne ha.1]
      exact he
    | cons y l =>
      obtain ⟨c, hc, hl⟩ := ih hx hn ha.2
      have hbx : b ≠ x := by
        rintro rfl
        exact hb (mem_of_mem_getLast? hx)
      refine ⟨c, hc, .cons (c := d) ?_ hl⟩
      rw [update_of_ne hbx]
      exact cell

omit [DecidableEq α] in
theorem Queue.empty (cells : α → Option (Cell α β)) : Queue cells none none [] :=
  ⟨.nil, rfl, nodup_nil⟩

omit [DecidableEq α] in
theorem Queue.last_eq_none_iff (h : Queue cells first last l) : last = none ↔ first = none := by
  rw [h.last, h.linked.head_eq, getLast?_eq_none_iff, head?_eq_none_iff]

theorem Queue.update (h : Queue cells first last l) (ha : a ∉ l.map fst)
    (c : Option (Cell α β)) : Queue (update cells a c) first last l :=
  ⟨h.linked.update ha c, h.last, h.nodup⟩

theorem Queue.link {x : α} (h : Queue cells first (some x) l) (hn : cells a = some ⟨none, v⟩)
    (ha : a ∉ l.map fst) : ∃ c, cells x = some c ∧
      Queue (Function.update cells x (some { c with next := some a })) first (some a)
        (l ++ [(a, v)]) := by
  obtain ⟨c, hc, hl⟩ := h.linked.link h.last.symm h.nodup hn ha
  have hm : (l ++ [(a, v)]).map fst = (l.map fst).concat a := by
    rw [map_append, concat_eq_append]
    rfl
  refine ⟨c, hc, hl, ?_, ?_⟩
  · rw [hm, concat_eq_append, getLast?_concat]
  rw [hm, nodup_concat]
  exact ⟨ha, h.nodup⟩

omit [DecidableEq α] in
theorem Queue.link_empty (h : Queue cells first none l) (hn : cells a = some ⟨none, v⟩) :
    l = [] ∧ Queue cells (some a) (some a) [(a, v)] := by
  have hi : l = [] := map_eq_nil_iff.mp (getLast?_eq_none_iff.mp h.last.symm)
  exact ⟨hi, .cons (c := ⟨none, v⟩) hn .nil, rfl, nodup_singleton a⟩

omit [DecidableEq α] in
theorem Queue.unlink (h : Queue cells (some a) last l) : ∃ c rest, cells a = some c ∧
    l = (a, c.value) :: rest ∧ a ∉ rest.map fst ∧
      Queue cells c.next (if c.next.isNone then none else last) rest := by
  obtain ⟨hl, ha, hn⟩ := h
  cases hl with
  | @cons a c rest cell hr =>
    obtain ⟨ho, hn⟩ := nodup_cons.mp hn
    refine ⟨c, rest, cell, rfl, ho, hr, ?_, hn⟩
    have he := hr.head_eq
    cases rest with
    | nil =>
      rw [he]
      rfl
    | cons y rest =>
      rw [he]
      exact ha

end Linked

end AexKernel.Library
