import AexKernel.Basic
import AexKernel.Library.Run

/-! # Shared ownership (`aex/mem/smartptr.hpp`, `aex/mem/smartarray.hpp`)

Handles (`SmartPointer`) and slots of arrays (`SmartArray::element`) refer to an object and to the
counter of its owners. -/

namespace AexKernel.Mem

open Library List Function
open Multiset (coe_add coe_countP cons_add mem_cons_of_mem notMem_zero)

/-- The fields of `SmartPointer` and of `SmartArray::element`. -/
structure Ref where
  ptr : Option ℕ
  shared : Option ℕ
  deriving DecidableEq, Repr

/-- `SmartPointer<T>(nullptr, nullptr)`, and a slot after `die()`. -/
def Ref.null : Ref := ⟨none, none⟩

/-- The counters that are allocated, the arrays and the handles that are alive. -/
structure SmartStore (ι : Type) where
  refs : ℕ → Option ℤ := fun _ => none
  made : ℕ := 0
  arrays : ι → List Ref := fun _ => []
  handles : List Ref := []
  added : List ℕ := []
  deleted : List ℕ := []

/-- A call on an array or on the handle at a place of the list. -/
inductive SmartCall (ι : Type)
  | get (array : ι) (index : ℤ)
  | remove (array : ι) (index : ℤ)
  | addRef (array : ι) (ptr : Option ℕ)
  /-- `addRef(ptr, counter)`, which nothing calls. -/
  | addRefShared (array : ι) (ptr shared : Option ℕ)
  | copy (source : ℕ)
  | assign (target source : ℕ)
  | destroy (handle : ℕ)

namespace SmartStore

variable {ι : Type}

/-! ## Counters -/

/-- `ref_counter::increment()`. -/
def increment (s : SmartStore ι) (c : ℕ) : Except Fault (SmartStore ι) :=
  match s.refs c with
  | none => .error .outOfBounds
  | some n => .ok { s with refs := Function.update s.refs c (some (n + 1)) }

/-- `ref_counter::decrement()`. -/
def decrement (s : SmartStore ι) (c : ℕ) : Except Fault (Bool × SmartStore ι) :=
  match s.refs c with
  | none => .error .outOfBounds
  | some n => .ok (n - 1 = 0, { s with refs := Function.update s.refs c (some (n - 1)) })

/-- `new sp_shared(refs)`. -/
def newShared (s : SmartStore ι) (refs : ℤ) : ℕ × SmartStore ι :=
  (s.made, { s with refs := Function.update s.refs s.made (some refs), made := s.made + 1 })

def cleanup (s : SmartStore ι) (r : Ref) (c : ℕ) : SmartStore ι :=
  { s with refs := Function.update s.refs c none, deleted := s.deleted ++ r.ptr.toList }

/-- How the copy constructor and the assignment count a new reference. -/
def retain (s : SmartStore ι) (r : Ref) : Except Fault (SmartStore ι) :=
  match r.shared with
  | none => .ok s
  | some c => s.increment c

/-- How `~SmartPointer`, the assignment and `die()` give up a reference. -/
def release (s : SmartStore ι) (r : Ref) : Except Fault (SmartStore ι) :=
  match r.shared with
  | none => .ok s
  | some c => do
    let (last, s) ← s.decrement c
    if last then return s.cleanup r c else return s

/-! ## Handles -/

/-- `SmartPointer(const SmartPointer&)`. -/
def copy (s : SmartStore ι) (source : ℕ) : Except Fault (SmartStore ι) :=
  match s.handles[source]? with
  | none => .ok s
  | some r => do
    let s ← s.retain r
    return { s with handles := s.handles ++ [r] }

/-- `operator=`. -/
def assign (s : SmartStore ι) (target source : ℕ) : Except Fault (SmartStore ι) :=
  match s.handles[target]?, s.handles[source]? with
  | some old, some new =>
    if target = source then .ok s
    else do
      let s ← s.release old
      let s := { s with handles := s.handles.set target new }
      s.retain new
  | _, _ => .ok s

/-- `~SmartPointer`. -/
def destroy (s : SmartStore ι) (handle : ℕ) : Except Fault (SmartStore ι) :=
  match s.handles[handle]? with
  | none => .ok s
  | some r => do
    let s ← s.release r
    return { s with handles := s.handles.eraseIdx handle }

/-! ## Arrays -/

def slot? (slots : List Ref) (index : ℤ) : Option Ref :=
  if index < 0 then none else slots[index.toNat]?

/-- `SmartArray::get`: the handle that it returns joins the handles. -/
def get (s : SmartStore ι) (array : ι) (index : ℤ) : Except Fault (SmartStore ι) :=
  match slot? (s.arrays array) index with
  | none => .ok { s with handles := s.handles ++ [Ref.null] }
  | some r =>
    match r.shared with
    | none => .ok { s with handles := s.handles ++ [Ref.null] }
    | some c => do
      let s ← s.increment c
      return { s with handles := s.handles ++ [r] }

/-- The test of `findSlotOrMakeSlot` for a slot that may be used. -/
def unused (s : SmartStore ι) (r : Ref) : Except Fault Bool :=
  match r.ptr, r.shared with
  | some _, some c =>
    match s.refs c with
    | none => .error .outOfBounds
    | some n => .ok (n = 0)
  | _, _ => .ok true

/-- The loop of `findSlotOrMakeSlot`. -/
def findSlotOrMakeSlot (s : SmartStore ι) : List Ref → Except Fault ℕ
  | [] => .ok 0
  | r :: rest => do
    if ← s.unused r then return 0
    let i ← s.findSlotOrMakeSlot rest
    return i + 1

/-- `m_elements[index] = e`, where `m_elements` may have grown by one. -/
def place (slots : List Ref) (index : ℕ) (e : Ref) : List Ref :=
  if index < slots.length then slots.set index e else slots ++ [e]

section Calls

variable [DecidableEq ι]

/-- `addRef` with the counter already made. -/
def addElement (s : SmartStore ι) (array : ι) (index : ℕ) (e : Ref) : SmartStore ι :=
  { s with
    arrays := Function.update s.arrays array (place (s.arrays array) index e)
    added := s.added ++ e.ptr.toList }

/-- `SmartArray::addRef(ptr)`. -/
def addRef (s : SmartStore ι) (array : ι) (ptr : Option ℕ) : Except Fault (ℕ × SmartStore ι) := do
  let index ← s.findSlotOrMakeSlot (s.arrays array)
  let (c, s) := s.newShared 1
  return (index, s.addElement array index ⟨ptr, some c⟩)

/-- `SmartArray::addRef(ptr, counter)`. -/
def addRefShared (s : SmartStore ι) (array : ι) (ptr shared : Option ℕ) :
    Except Fault (ℕ × SmartStore ι) := do
  let index ← s.findSlotOrMakeSlot (s.arrays array)
  return (index, s.addElement array index ⟨ptr, shared⟩)

/-- `SmartArray::remove`. -/
def remove (s : SmartStore ι) (array : ι) (index : ℤ) : Except Fault (SmartStore ι) :=
  match slot? (s.arrays array) index with
  | none => .ok s
  | some r => do
    let s ← s.release r
    return { s with
      arrays := Function.update s.arrays array ((s.arrays array).set index.toNat Ref.null) }

def step (s : SmartStore ι) : SmartCall ι → Except Fault (SmartStore ι)
  | .get array index => s.get array index
  | .remove array index => s.remove array index
  | .addRef array ptr => do
    let (_, s) ← s.addRef array ptr
    return s
  | .addRefShared array ptr shared => do
    let (_, s) ← s.addRefShared array ptr shared
    return s
  | .copy source => s.copy source
  | .assign target source => s.assign target source
  | .destroy handle => s.destroy handle

/-- The calls that count the owners of every object with one counter. -/
def AddsOnce (s : SmartStore ι) : SmartCall ι → Prop
  | .addRef _ ptr => ∀ o ∈ ptr, o ∉ s.added
  | .addRefShared .. => False
  | _ => True

instance (s : SmartStore ι) : (call : SmartCall ι) → Decidable (s.AddsOnce call)
  | .addRef _ ptr => inferInstanceAs (Decidable (∀ o ∈ ptr, o ∉ s.added))
  | .addRefShared .. => inferInstanceAs (Decidable False)
  | .get .. | .remove .. | .copy _ | .assign .. | .destroy _ => inferInstanceAs (Decidable True)

end Calls

def owners [Fintype ι] (s : SmartStore ι) (o : ℕ) : ℕ :=
  s.handles.countP (·.ptr = some o) + ∑ array, (s.arrays array).countP (·.ptr = some o)

/-- Shared ownership: whoever refers to an object holds its one counter, which counts the handles
and slots. -/
structure Exact [Fintype ι] (s : SmartStore ι) : Prop where
  counted : ∀ o, s.owners o ≠ 0 → ∃ c, s.refs c = some (s.owners o : ℤ) ∧
    (∀ r ∈ s.handles, r.ptr = some o → r.shared = some c) ∧
    ∀ array, ∀ r ∈ s.arrays array, r.ptr = some o → r.shared = some c
  deleted : ∀ o ∈ s.added, s.deleted.count o = if s.owners o = 0 then 1 else 0

/-! ## The balance of counters and references -/

def holding (H : Multiset Ref) (c : ℕ) : ℕ := H.countP (·.shared = some c)

variable {c o i : ℕ} {r : Ref}

theorem holding_cons_self (H : Multiset Ref) (h : r.shared = some c) :
    holding (r ::ₘ H) c = holding H c + 1 :=
  Multiset.countP_cons_of_pos H h

theorem holding_cons_of_ne (H : Multiset Ref) (h : r.shared ≠ some c) :
    holding (r ::ₘ H) c = holding H c :=
  Multiset.countP_cons_of_neg H h

theorem holding_pos {H : Multiset Ref} (hr : r ∈ H) (h : r.shared = some c) : 0 < holding H c :=
  Multiset.countP_pos.mpr ⟨r, hr, h⟩

/-- What a counter made for `object` counts. -/
structure Account (object : Option ℕ) (value : Option ℤ) (held : ℕ) (deleted : List ℕ) : Prop where
  enough : ∀ n, value = some n → held ≤ n
  exact : ∀ o n, object = some o → value = some n → n = held ∧ 0 < n
  gone : value = none → held = 0
  deleted : ∀ o, object = some o → deleted.count o = if value = none then 1 else 0

namespace Account

variable {object : Option ℕ} {value : Option ℤ} {n : ℤ} {held : ℕ} {deleted deleted' : List ℕ}

theorem retain (h : Account object (some n) held deleted) :
    Account object (some (n + 1)) (held + 1) deleted where
  enough m hm := by
    have := h.enough n rfl
    have := Option.some.inj hm
    push_cast
    omega
  exact o m ho hm := by
    have := h.exact o n ho rfl
    have := Option.some.inj hm
    push_cast
    omega
  gone hm := nomatch hm
  deleted := h.deleted

section

variable (h : Account object (some n) (held + 1) deleted)
include h

theorem release (hn : n - 1 ≠ 0) :
    Account object (some (n - 1)) held deleted where
  enough m hm := by
    have := h.enough n rfl
    have := Option.some.inj hm
    push_cast at *
    omega
  exact o m ho hm := by
    have := h.exact o n ho rfl
    have := Option.some.inj hm
    push_cast at *
    omega
  gone hm := nomatch hm
  deleted := h.deleted

theorem close (hn : n - 1 = 0) :
    Account object none held (deleted ++ object.toList) where
  enough m hm := nomatch hm
  exact o m _ hm := nomatch hm
  gone _ := by
    have := h.enough n rfl
    push_cast at this
    omega
  deleted o ho := by
    rw [ho, Option.toList_some, count_append, h.deleted o ho, count_singleton_self]
    rfl

end

theorem congr (h : Account object value held deleted)
    (hc : ∀ o, object = some o → deleted'.count o = deleted.count o) :
    Account object value held deleted' :=
  ⟨h.enough, h.exact, h.gone, fun o ho => (hc o ho).trans (h.deleted o ho)⟩

end Account

/-- The counters are in balance with a multiset of references, where `owner c` is the object that the
counter `c` was made for. -/
structure Balanced (owner : ℕ → Option ℕ) (s : SmartStore ι) (H : Multiset Ref) : Prop where
  bound : ∀ r ∈ H, ∀ c, r.shared = some c → r.ptr = owner c
  bare : ∀ r ∈ H, r.shared = none → r.ptr = none
  account : ∀ c, Account (owner c) (s.refs c) (holding H c) s.deleted
  apart : ∀ c c' o, owner c = some o → owner c' = some o → c = c'
  fresh : ∀ c, s.made ≤ c → s.refs c = none ∧ owner c = none
  added : ∀ o, o ∈ s.added ↔ ∃ c, owner c = some o
  deleted : ∀ o ∈ s.deleted, o ∈ s.added

variable {owner : ℕ → Option ℕ} {s s' : SmartStore ι} {H H' : Multiset Ref}

section

variable (h : Balanced owner s H)
include h

section

variable (hr : r ∈ H)
include hr

theorem Balanced.alive (hc : r.shared = some c) : ∃ n, s.refs c = some n := by
  cases hn : s.refs c with
  | some n => exact ⟨n, rfl⟩
  | none => exact absurd ((h.account c).gone hn) (holding_pos hr hc).ne'

theorem Balanced.eq_null (hn : r.shared = none) : r = Ref.null := by
  obtain ⟨ptr, shared⟩ := r
  exact congrArg₂ Ref.mk (h.bare _ hr hn) hn

theorem Balanced.counter_of_ptr (ho : r.ptr = some o) :
    ∃ c, r.shared = some c ∧ owner c = some o := by
  cases hc : r.shared with
  | none =>
    rw [h.bare r hr hc] at ho
    cases ho
  | some c => exact ⟨c, rfl, (h.bound r hr c hc).symm.trans ho⟩

theorem Balanced.shared_of_ptr (hc : owner c = some o) (ho : r.ptr = some o) :
    r.shared = some c := by
  obtain ⟨c', hs, hc'⟩ := h.counter_of_ptr hr ho
  rw [hs, h.apart c' c o hc' hc]

end

theorem Balanced.congr (he : s'.refs = s.refs) (hm : s'.made = s.made) (ha : s'.added = s.added)
    (hd : s'.deleted = s.deleted) : Balanced owner s' H where
  bound := h.bound
  bare := h.bare
  account := by rw [he, hd]; exact h.account
  apart := h.apart
  fresh := by rw [he, hm]; exact h.fresh
  added := ha ▸ h.added
  deleted := by rw [ha, hd]; exact h.deleted

end

theorem balanced_null : Balanced owner s (Ref.null ::ₘ H) ↔ Balanced owner s H := by
  have hs (c : ℕ) : holding (Ref.null ::ₘ H) c = holding H c :=
    holding_cons_of_ne H (nomatch ·)
  refine ⟨fun h => ⟨fun q hq => h.bound q (Multiset.mem_cons_of_mem hq),
    fun q hq => h.bare q (Multiset.mem_cons_of_mem hq), fun c => hs c ▸ h.account c, h.apart,
    h.fresh, h.added, h.deleted⟩, fun h => ⟨?_, ?_, fun c => (hs c).symm ▸ h.account c, h.apart,
    h.fresh, h.added, h.deleted⟩⟩
  · exact Multiset.forall_mem_cons.mpr ⟨fun c hc => (nomatch hc), h.bound⟩
  · exact Multiset.forall_mem_cons.mpr ⟨fun _ => rfl, h.bare⟩

theorem Balanced.drop (h : Balanced owner s (r ::ₘ H)) (hr : r.ptr = none) : Balanced owner s H := by
  refine ⟨fun q hq => h.bound q (Multiset.mem_cons_of_mem hq),
    fun q hq => h.bare q (Multiset.mem_cons_of_mem hq), fun c => ?_, h.apart, h.fresh, h.added,
    h.deleted⟩
  have hc := h.account c
  by_cases hs : r.shared = some c
  · have hw : owner c = none := (h.bound r (Multiset.mem_cons_self r H) c hs).symm.trans hr
    rw [holding_cons_self H hs] at hc
    refine ⟨fun n hn => ?_, fun o n ho => ?_, fun hn => ?_, hc.deleted⟩
    · have := hc.enough n hn
      push_cast at this
      omega
    · rw [hw] at ho
      cases ho
    · exact absurd (hc.gone hn) (Nat.succ_ne_zero _)
  · rwa [holding_cons_of_ne H hs] at hc

section

variable (h : Balanced owner s H)
include h

theorem Balanced.update {value : Option ℤ} {deleted : List ℕ}
    (hb : ∀ r ∈ H', ∀ c, r.shared = some c → r.ptr = owner c)
    (ha : ∀ r ∈ H', r.shared = none → r.ptr = none) (hc : c < s.made)
    (ht : ∀ c', c' ≠ c → holding H' c' = holding H c')
    (hac : Account (owner c) value (holding H' c) deleted)
    (hd : ∀ o, owner c ≠ some o → deleted.count o = s.deleted.count o) :
    Balanced owner { s with refs := update s.refs c value, deleted := deleted } H' where
  bound := hb
  bare := ha
  account c' := by
    by_cases he : c' = c
    · rw [he]
      dsimp only
      rwa [update_self]
    dsimp only
    rw [update_of_ne he, ht c' he]
    refine (h.account c').congr fun o ho => hd o fun ho' => ?_
    exact he (h.apart c' c o ho ho')
  apart := h.apart
  fresh c' hc' := by
    dsimp only
    rw [update_of_ne (hc.trans_le hc').ne']
    exact h.fresh c' hc'
  added := h.added
  deleted o ho := by
    by_cases hco : owner c = some o
    · exact (h.added o).mpr ⟨c, hco⟩
    refine h.deleted o (count_pos_iff.mp ?_)
    rw [← hd o hco]
    exact count_pos_iff.mpr ho

theorem Balanced.lt_made {n : ℤ} (hn : s.refs c = some n) : c < s.made := by
  by_contra hc
  rw [(h.fresh c (not_lt.mp hc)).1] at hn
  cases hn

theorem Balanced.retain (hr : r ∈ H) : ∃ refs, s.retain r = .ok { s with refs := refs } ∧
      Balanced owner { s with refs := refs } (r ::ₘ H) := by
  cases hs : r.shared with
  | none =>
    refine ⟨s.refs, ?_, ?_⟩
    · rw [SmartStore.retain, hs]
    rw [h.eq_null hr hs]
    exact balanced_null.mpr h
  | some c =>
    obtain ⟨n, hn⟩ := h.alive hr hs
    refine ⟨Function.update s.refs c (some (n + 1)), ?_, ?_⟩
    · rw [SmartStore.retain, hs]
      dsimp only
      rw [increment, hn]
    refine h.update ?_ ?_ (h.lt_made hn) (fun c' he => ?_) ?_ fun _ _ => rfl
    · exact Multiset.forall_mem_cons.mpr ⟨h.bound r hr, h.bound⟩
    · exact Multiset.forall_mem_cons.mpr ⟨h.bare r hr, h.bare⟩
    · exact holding_cons_of_ne H fun h' => he (Option.some.inj (h'.symm.trans hs))
    · rw [holding_cons_self H hs]
      exact (hn ▸ h.account c).retain

end

/-- **A reference is given up**; with the last one the object is deleted. -/
theorem Balanced.release (h : Balanced owner s (r ::ₘ H)) :
    ∃ refs deleted, s.release r = .ok { s with refs := refs, deleted := deleted } ∧
      Balanced owner { s with refs := refs, deleted := deleted } H := by
  have hr := Multiset.mem_cons_self r H
  have hb : ∀ q ∈ H, ∀ c, q.shared = some c → q.ptr = owner c :=
    fun q hq => h.bound q (Multiset.mem_cons_of_mem hq)
  have hba : ∀ q ∈ H, q.shared = none → q.ptr = none :=
    fun q hq => h.bare q (Multiset.mem_cons_of_mem hq)
  cases hs : r.shared with
  | none =>
    refine ⟨s.refs, s.deleted, ?_, ?_⟩
    · rw [SmartStore.release, hs]
    have hu := h.eq_null hr hs
    subst hu
    exact balanced_null.mp h
  | some c =>
    obtain ⟨n, hn⟩ := h.alive hr hs
    have ha := h.account c
    rw [hn, holding_cons_self H hs] at ha
    have ht (c' : ℕ) (he : c' ≠ c) : holding H c' = holding (r ::ₘ H) c' :=
      (holding_cons_of_ne H fun h' => he (Option.some.inj (h'.symm.trans hs))).symm
    by_cases hl : n - 1 = 0
    · refine ⟨Function.update s.refs c none, s.deleted ++ r.ptr.toList, ?_, ?_⟩
      · simp only [SmartStore.release, hs, decrement, hn, ok_bind, hl, decide_true, if_true,
          pure_eq_ok, cleanup, update_idem]
      have hp := h.bound r hr c hs
      refine h.update hb hba (h.lt_made hn) ht (hp ▸ ha.close hl) fun o ho => ?_
      rw [count_append, Nat.add_eq_left, count_eq_zero, hp]
      exact fun hm => ho (Option.mem_toList.mp hm)
    · refine ⟨Function.update s.refs c (some (n - 1)), s.deleted, ?_, ?_⟩
      · simp only [SmartStore.release, hs, decrement, hn, ok_bind, hl, decide_false,
          Bool.false_eq_true, if_false, pure_eq_ok]
      · exact h.update hb hba (h.lt_made hn) ht (ha.release hl) fun _ _ => rfl

variable {ptr : Option ℕ}

/-- **A new counter** for an object that was never put into an array. -/
theorem Balanced.register (h : Balanced owner s H) (hp : ∀ o ∈ ptr, o ∉ s.added) :
    Balanced (Function.update owner s.made ptr)
      { (s.newShared 1).2 with added := s.added ++ ptr.toList } (⟨ptr, some s.made⟩ ::ₘ H) := by
  have hold {c : ℕ} {q : Ref} (hq : q ∈ H) (hc : q.shared = some c) : c ≠ s.made := by
    obtain ⟨n, hn⟩ := h.alive hq hc
    exact (h.lt_made hn).ne
  have hw {o : ℕ} (ho : ptr = some o) (c : ℕ) : owner c ≠ some o := fun hc =>
    hp o ho ((h.added o).mpr ⟨c, hc⟩)
  refine ⟨?_, ?_, fun c => ?_, fun c c' o hc hc' => ?_, fun c hc => ?_, fun o => ?_, fun o ho => ?_⟩
  · refine Multiset.forall_mem_cons.mpr ⟨fun c hc => ?_, fun q hq c hc => ?_⟩
    · cases hc
      exact (update_self s.made ptr owner).symm
    · rw [update_of_ne (hold hq hc)]
      exact h.bound q hq c hc
  · exact Multiset.forall_mem_cons.mpr ⟨fun hc => (nomatch hc), h.bare⟩
  · by_cases he : c = s.made
    · subst he
      have hz : holding H s.made = 0 := (h.account s.made).gone (h.fresh s.made le_rfl).1
      rw [holding_cons_self H rfl, hz, newShared, update_self]
      dsimp only
      rw [update_self]
      refine ⟨fun n hn => ?_, fun o n ho hn => ?_, (nomatch ·), fun o ho => ?_⟩
      · cases hn
        rfl
      · cases hn
        exact ⟨rfl, Int.one_pos⟩
      · rw [if_neg (Option.some_ne_none _)]
        exact count_eq_zero.mpr fun hm => hp o ho (h.deleted o hm)
    · rw [holding_cons_of_ne H fun h' => he (Option.some.inj h').symm, newShared, update_of_ne he]
      dsimp only
      rw [update_of_ne he]
      exact h.account c
  · -- the object has no other counter
    by_cases he : c = s.made <;> by_cases he' : c' = s.made
    · rw [he, he']
    · rw [he, update_self] at hc
      rw [update_of_ne he'] at hc'
      exact absurd hc' (hw hc c')
    · rw [he', update_self] at hc'
      rw [update_of_ne he] at hc
      exact absurd hc (hw hc' c)
    · rw [update_of_ne he] at hc
      rw [update_of_ne he'] at hc'
      exact h.apart c c' o hc hc'
  · have hne : c ≠ s.made := (Nat.lt_of_succ_le hc).ne'
    rw [newShared, update_of_ne hne]
    dsimp only
    rw [update_of_ne hne]
    exact h.fresh c ((Nat.le_succ _).trans hc)
  · rw [mem_append, h.added, Option.mem_toList]
    refine ⟨?_, fun ⟨c, hc⟩ => ?_⟩
    · rintro (⟨c, hc⟩ | ho)
      · have hne : c ≠ s.made := by
          rintro rfl
          rw [(h.fresh s.made le_rfl).2] at hc
          cases hc
        exact ⟨c, (update_of_ne hne ptr owner).trans hc⟩
      · exact ⟨s.made, (update_self s.made ptr owner).trans ho⟩
    · by_cases he : c = s.made
      · rw [he, update_self] at hc
        exact .inr hc
      · rw [update_of_ne he] at hc
        exact .inl ⟨c, hc⟩
  · exact mem_append_left _ (h.deleted o ho)

variable {slots : List Ref}

theorem Balanced.findSlotOrMakeSlot (h : Balanced owner s H) (hl : ∀ r ∈ slots, r ∈ H) :
    ∃ i, s.findSlotOrMakeSlot slots = .ok i ∧ ∀ r, slots[i]? = some r → r.ptr = none := by
  induction slots with
  | nil => exact ⟨0, rfl, fun r hr => by cases hr⟩
  | cons q rest ih =>
    obtain ⟨hq, he⟩ := forall_mem_cons.mp hl
    obtain ⟨i, hi, hf⟩ := ih he
    by_cases hp : q.ptr = none
    · refine ⟨0, ?_, fun r hr => ?_⟩
      · simp only [SmartStore.findSlotOrMakeSlot, unused, hp, ok_bind, if_true, pure_eq_ok]
      cases hr
      exact hp
    obtain ⟨o, ho⟩ := Option.ne_none_iff_exists'.mp hp
    have hh : q.shared ≠ none := fun hnon => hp (h.bare q hq hnon)
    obtain ⟨c, hc⟩ := Option.ne_none_iff_exists'.mp hh
    obtain ⟨n, hn⟩ := h.alive hq hc
    -- the counter of an object that a slot holds is positive
    have hs := ((h.account c).exact o n ((h.bound q hq c hc).symm.trans ho) hn).2
    refine ⟨i + 1, ?_, fun r hr => hf r hr⟩
    simp only [SmartStore.findSlotOrMakeSlot, unused, ho, hc, hn, hs.ne', decide_false, ok_bind,
      Bool.false_eq_true, if_false, hi, pure_eq_ok]

/-! ## The references of a store -/

section References

variable [Fintype ι]

def references (s : SmartStore ι) : Multiset Ref := s.handles + ∑ array, (s.arrays array : Multiset Ref)

def elsewhere [DecidableEq ι] (s : SmartStore ι) (array : ι) : Multiset Ref :=
  s.handles + ∑ other ∈ Finset.univ.erase array, (s.arrays other : Multiset Ref)

theorem references_eq [DecidableEq ι] (s : SmartStore ι) (array : ι) :
    s.references = s.arrays array + s.elsewhere array := by
  rw [references, elsewhere, add_left_comm,
    Finset.add_sum_erase Finset.univ (fun other => (s.arrays other : Multiset Ref))
      (Finset.mem_univ array)]

theorem references_update [DecidableEq ι] (s : SmartStore ι) (array : ι) (slots : List Ref) :
    references { s with arrays := update s.arrays array slots } =
      slots + s.elsewhere array := by
  rw [references_eq _ array]
  dsimp only
  rw [update_self, elsewhere, elsewhere]
  congr 2
  refine Finset.sum_congr rfl fun other ho => ?_
  dsimp only
  rw [update_of_ne (Finset.ne_of_mem_erase ho)]

theorem coe_eq_cons_eraseIdx (h : slots[i]? = some r) :
    (slots : Multiset Ref) = r ::ₘ slots.eraseIdx i := by
  obtain ⟨hi, rfl⟩ := List.getElem?_eq_some_iff.mp h
  exact Multiset.coe_eq_coe.mpr (getElem_cons_eraseIdx_perm hi).symm

theorem coe_set (hi : i < slots.length) (e : Ref) :
    (slots.set i e : Multiset Ref) = e ::ₘ slots.eraseIdx i :=
  Multiset.coe_eq_coe.mpr (set_perm_cons_eraseIdx hi e)

theorem references_append (s : SmartStore ι) (r : Ref) :
    references { s with handles := s.handles ++ [r] } = r ::ₘ s.references := by
  rw [references, references, ← coe_add, add_right_comm, Multiset.coe_singleton,
    Multiset.add_comm _ {r}, Multiset.singleton_add]

theorem references_handle (h : s.handles[i]? = some r) :
    s.references = r ::ₘ references { s with handles := s.handles.eraseIdx i } := by
  rw [references, references, coe_eq_cons_eraseIdx h, cons_add]

theorem references_set (hi : i < s.handles.length) (e : Ref) :
    references { s with handles := s.handles.set i e } =
      e ::ₘ references { s with handles := s.handles.eraseIdx i } := by
  rw [references, references, coe_set hi, cons_add]

theorem mem_references_handle (h : r ∈ s.handles) : r ∈ s.references :=
  Multiset.mem_add.mpr (.inl (Multiset.mem_coe.mpr h))

variable {array : ι}

theorem mem_references_slot [DecidableEq ι] (h : r ∈ s.arrays array) : r ∈ s.references := by
  rw [references_eq s array]
  exact Multiset.mem_add.mpr (.inl (Multiset.mem_coe.mpr h))

theorem slot?_eq_some {i : ℤ} (h : slot? slots i = some r) :
    slots[i.toNat]? = some r := by
  rw [slot?] at h
  split_ifs at h
  exact h

/-! ## Calls -/

def Sound (s : SmartStore ι) : Prop := ∃ owner, Balanced owner s s.references

theorem Sound.copy (h : s.Sound) (source : ℕ) : ∃ s', s.copy source = .ok s' ∧ s'.Sound := by
  obtain ⟨owner, hb⟩ := h
  cases hr : s.handles[source]? with
  | none => exact ⟨s, by rw [SmartStore.copy, hr], owner, hb⟩
  | some r =>
    obtain ⟨refs, he, hb'⟩ := hb.retain (mem_references_handle (mem_of_getElem? hr))
    refine ⟨{ s with refs := refs, handles := s.handles ++ [r] }, ?_, owner, ?_⟩
    · simp only [SmartStore.copy, hr, he, ok_bind, pure_eq_ok]
    rw [references_append { s with refs := refs } r]
    exact hb'.congr rfl rfl rfl rfl

theorem Sound.destroy (h : s.Sound) (handle : ℕ) : ∃ s', s.destroy handle = .ok s' ∧ s'.Sound := by
  obtain ⟨owner, hb⟩ := h
  cases hr : s.handles[handle]? with
  | none => exact ⟨s, by rw [SmartStore.destroy, hr], owner, hb⟩
  | some r =>
    rw [references_handle hr] at hb
    obtain ⟨refs, deleted, he, hb'⟩ := hb.release
    refine ⟨{ s with refs := refs, deleted := deleted, handles := s.handles.eraseIdx handle }, ?_,
      owner, hb'.congr rfl rfl rfl rfl⟩
    simp only [SmartStore.destroy, hr, he, ok_bind, pure_eq_ok]

theorem Sound.assign (h : s.Sound) (target source : ℕ) :
    ∃ s', s.assign target source = .ok s' ∧ s'.Sound := by
  obtain ⟨owner, hb⟩ := h
  cases hold : s.handles[target]? with
  | none => exact ⟨s, by rw [SmartStore.assign, hold], owner, hb⟩
  | some old =>
    cases hn : s.handles[source]? with
    | none => exact ⟨s, by rw [SmartStore.assign, hold, hn], owner, hb⟩
    | some new =>
      by_cases hs : target = source
      · refine ⟨s, ?_, owner, hb⟩
        rw [SmartStore.assign, hold, hn]
        exact if_pos hs
      have ha := (List.getElem?_eq_some_iff.mp hold).1
      rw [references_handle hold] at hb
      obtain ⟨refs, deleted, hre, hb'⟩ := hb.release
      -- the source is another handle, which is still there
      have hm : new ∈ s.handles.eraseIdx target :=
        mem_eraseIdx_iff_getElem?.mpr ⟨source, Ne.symm hs, hn⟩
      have he : Balanced owner
          { s with refs := refs, deleted := deleted, handles := s.handles.set target new }
          (references { s with handles := s.handles.eraseIdx target }) :=
        hb'.congr rfl rfl rfl rfl
      obtain ⟨refs', ht, hba''⟩ := he.retain
        (mem_references_handle (s := { s with handles := s.handles.eraseIdx target }) hm)
      refine ⟨{ s with refs := refs', deleted := deleted, handles := s.handles.set target new }, ?_,
        owner, ?_⟩
      · simp only [SmartStore.assign, hold, hn, hs, if_false, hre, ok_bind, ht]
      rw [references_set (s := { s with refs := refs', deleted := deleted }) ha new]
      exact hba''

variable [DecidableEq ι]

theorem Sound.get (h : s.Sound) (a : ι) (i : ℤ) :
    ∃ s', s.get a i = .ok s' ∧ s'.Sound := by
  obtain ⟨owner, hb⟩ := h
  have hn : Sound { s with handles := s.handles ++ [Ref.null] } := by
    refine ⟨owner, ?_⟩
    rw [references_append s Ref.null]
    exact (balanced_null.mpr hb).congr rfl rfl rfl rfl
  cases hs : slot? (s.arrays a) i with
  | none => exact ⟨_, by rw [SmartStore.get, hs], hn⟩
  | some r =>
    cases hh : r.shared with
    | none => exact ⟨_, by simp only [SmartStore.get, hs, hh], hn⟩
    | some c =>
      have hm := mem_references_slot (mem_of_getElem? (slot?_eq_some hs))
      obtain ⟨refs, he, hb'⟩ := hb.retain hm
      rw [SmartStore.retain, hh] at he
      refine ⟨{ s with refs := refs, handles := s.handles ++ [r] }, ?_, owner, ?_⟩
      · simp only [SmartStore.get, hs, hh, he, ok_bind, pure_eq_ok]
      rw [references_append { s with refs := refs } r]
      exact hb'.congr rfl rfl rfl rfl

theorem Sound.remove (h : s.Sound) (array : ι) (index : ℤ) :
    ∃ s', s.remove array index = .ok s' ∧ s'.Sound := by
  obtain ⟨owner, hb⟩ := h
  cases hs : slot? (s.arrays array) index with
  | none => exact ⟨s, by rw [SmartStore.remove, hs], owner, hb⟩
  | some r =>
    have hg := slot?_eq_some hs
    have hi := (List.getElem?_eq_some_iff.mp hg).1
    rw [references_eq s array, coe_eq_cons_eraseIdx hg, cons_add] at hb
    obtain ⟨refs, deleted, he, hb'⟩ := hb.release
    refine ⟨{ s with
      refs := refs
      deleted := deleted
      arrays := update s.arrays array ((s.arrays array).set index.toNat Ref.null) }, ?_,
      owner, ?_⟩
    · simp only [SmartStore.remove, hs, he, ok_bind, pure_eq_ok]
    rw [references_update { s with refs := refs, deleted := deleted } array, coe_set hi, cons_add]
    exact balanced_null.mpr (hb'.congr rfl rfl rfl rfl)

theorem Balanced.place (h : Balanced owner s s.references)
    (hf : ∀ r, (s.arrays array)[i]? = some r → r.ptr = none) (e : Ref) :
    ∃ H, Balanced owner s H ∧
      (place (s.arrays array) i e : Multiset Ref) + s.elsewhere array = e ::ₘ H := by
  rw [SmartStore.place]
  rw [references_eq s array] at h
  split_ifs with hi
  · have hg := getElem?_eq_getElem hi
    rw [coe_eq_cons_eraseIdx hg, cons_add] at h
    refine ⟨_, h.drop (hf _ hg), ?_⟩
    rw [coe_set hi, cons_add]
  · refine ⟨_, h, ?_⟩
    rw [← coe_add, Multiset.add_comm (s.arrays array : Multiset Ref), Multiset.add_assoc,
      Multiset.coe_singleton, Multiset.singleton_add]

theorem Sound.addRef (h : s.Sound) (array : ι) (hp : ∀ o ∈ ptr, o ∉ s.added) :
    ∃ i s', s.addRef array ptr = .ok (i, s') ∧ s'.Sound ∧
      ∀ r, (s.arrays array)[i]? = some r → r.ptr = none := by
  obtain ⟨owner, hb⟩ := h
  obtain ⟨i, hi, hf⟩ :=
    hb.findSlotOrMakeSlot fun r (hr : r ∈ s.arrays array) => mem_references_slot hr
  obtain ⟨H, hH, hl⟩ := hb.place hf ⟨ptr, some s.made⟩
  refine ⟨i, (s.newShared 1).2.addElement array i ⟨ptr, some s.made⟩, ?_,
    ⟨update owner s.made ptr, ?_⟩, hf⟩
  · simp only [SmartStore.addRef, hi, ok_bind, pure_eq_ok, newShared]
  have he := references_update { (s.newShared 1).2 with added := s.added ++ ptr.toList } array
    (SmartStore.place (s.arrays array) i ⟨ptr, some s.made⟩)
  have hre : references ((s.newShared 1).2.addElement array i ⟨ptr, some s.made⟩) =
      ⟨ptr, some s.made⟩ ::ₘ H := he.trans hl
  rw [hre]
  exact (hH.register hp).congr rfl rfl rfl rfl

theorem Sound.step (h : s.Sound) {call : SmartCall ι} (hc : s.AddsOnce call) :
    ∃ s', s.step call = .ok s' ∧ s'.Sound := by
  cases call with
  | get array index => exact h.get array index
  | remove array index => exact h.remove array index
  | addRef array ptr =>
    obtain ⟨i, s', hs', hs, -⟩ := h.addRef array hc
    exact ⟨s', by simp only [SmartStore.step, hs', ok_bind, pure_eq_ok], hs⟩
  | addRefShared array ptr shared => exact absurd hc id
  | copy source => exact h.copy source
  | assign target source => exact h.assign target source
  | destroy handle => exact h.destroy handle

section

omit [DecidableEq ι]

theorem owners_eq (s : SmartStore ι) (o : ℕ) :
    s.owners o = s.references.countP (·.ptr = some o) := by
  rw [owners, references, Multiset.countP_add, coe_countP]
  have hs := map_sum (Multiset.countPAddMonoidHom fun r : Ref => r.ptr = some o)
    (fun array => (s.arrays array : Multiset Ref)) Finset.univ
  rw [Multiset.coe_countPAddMonoidHom] at hs
  rw [hs]
  simp only [coe_countP]

theorem Balanced.owners_eq_holding (h : Balanced owner s s.references) (hc : owner c = some o) :
    s.owners o = holding s.references c := by
  rw [owners_eq, holding]
  refine Multiset.countP_congr rfl fun r hr => propext ⟨fun ho => ?_, fun hs => ?_⟩
  · exact h.shared_of_ptr hr hc ho
  · exact (h.bound r hr c hs).trans hc

theorem Sound.exact (h : s.Sound) : s.Exact := by
  classical
  obtain ⟨owner, hb⟩ := h
  constructor
  · intro o ho
    rw [owners_eq] at ho
    obtain ⟨r, hr, hp⟩ := Multiset.countP_pos.mp (Nat.pos_of_ne_zero ho)
    obtain ⟨c, hc, hw⟩ := hb.counter_of_ptr hr hp
    obtain ⟨n, hn⟩ := hb.alive hr hc
    refine ⟨c, ?_, fun q hq => hb.shared_of_ptr (mem_references_handle hq) hw,
      fun array q hq => hb.shared_of_ptr (mem_references_slot hq) hw⟩
    rw [hn, ((hb.account c).exact o n hw hn).1, hb.owners_eq_holding hw]
  intro o ho
  obtain ⟨c, hc⟩ := (hb.added o).mp ho
  have ha := hb.account c
  rw [ha.deleted o hc, hb.owners_eq_holding hc]
  cases hn : s.refs c with
  | none => rw [if_pos rfl, if_pos (ha.gone hn)]
  | some n =>
    have hs := ha.exact o n hc hn
    rw [if_neg (Option.some_ne_none n), if_neg (by omega)]

theorem sound_empty : Sound ({} : SmartStore ι) := by
  have hn : references ({} : SmartStore ι) = 0 := by
    rw [references, Multiset.coe_nil, zero_add]
    exact Finset.sum_const_zero
  refine ⟨fun _ => none, ?_⟩
  rw [hn]
  exact
    { bound := fun r hr => absurd hr (notMem_zero r)
      bare := fun r hr => absurd hr (notMem_zero r)
      account := fun _ => ⟨fun _ h => (nomatch h), fun _ _ h => (nomatch h),
        fun _ => Multiset.countP_zero _, fun _ h => (nomatch h)⟩
      apart := fun _ _ _ h => nomatch h
      fresh := fun _ _ => ⟨rfl, rfl⟩
      added := fun o => ⟨fun h => (nomatch h), fun ⟨_, h⟩ => nomatch h⟩
      deleted := fun o h => nomatch h }

end

/-- **Shared ownership.** In every run that puts no object into an array twice and gives `addRef` no
counter, the counters are exact in every state, every further such call returns, and the slot that
`addRef` uses holds no object. -/
theorem exact_of_addsOnce (run : Reach SmartStore.step AddsOnce ({} : SmartStore ι) s) :
    s.Exact ∧ (∀ call, s.AddsOnce call → ∃ s', s.step call = .ok s') ∧
      ∀ array ptr i s', s.addRef array ptr = .ok (i, s') →
        ∀ r, (s.arrays array)[i]? = some r → r.ptr = none := by
  have hso : s.Sound := by
    refine run.invariant (P := Sound) sound_empty fun s call s' h hca hst => ?_
    obtain ⟨t, ht, hso⟩ := h.step hca
    exact Except.ok.inj (ht.symm.trans hst) ▸ hso
  refine ⟨hso.exact, fun call hca => ?_, fun array ptr i s' hadd => ?_⟩
  · obtain ⟨s', hs', -⟩ := hso.step hca
    exact ⟨s', hs'⟩
  obtain ⟨owner, hba⟩ := hso
  obtain ⟨j, hj, hfr⟩ :=
    hba.findSlotOrMakeSlot fun r (hr : r ∈ s.arrays array) => mem_references_slot hr
  rw [SmartStore.addRef, hj, ok_bind] at hadd
  cases hadd
  exact hfr

end References

theorem exact_of_addsOnce_handles :
    ∃ s : SmartStore Unit, Reach SmartStore.step AddsOnce {} s ∧ s.deleted = [7] ∧ s.Exact := by
  exact exists_reach [.addRef () (some 7), .get () 0, .copy 0, .assign 0 1, .assign 1 1,
    .remove () 0, .destroy 0, .addRef () (some 8), .destroy 0] (by decide)
    fun s hs => (exact_of_addsOnce hs).1

theorem not_exact_addTwice :
    ∃ s : SmartStore Bool, Reach SmartStore.step (fun _ _ => True) {} s ∧
      (∃ r ∈ s.arrays true, r.ptr = some 7) ∧ 7 ∈ s.deleted ∧ ¬ s.Exact := by
  obtain ⟨s, hs, hhe, hadd, hde, hown⟩ :
      ∃ s ∈ execute SmartStore.step (fun _ _ => True) ({} : SmartStore Bool)
      [.addRef false (some 7), .addRef true (some 7), .remove false 0],
      (∃ r ∈ s.arrays true, r.ptr = some 7) ∧ 7 ∈ s.added ∧ s.deleted = [7] ∧ s.owners 7 = 1 := by
    decide
  refine ⟨s, Reach.refl.execute hs, hhe, hde ▸ mem_singleton_self 7, fun hex => ?_⟩
  have hco := hex.deleted 7 hadd
  rw [hde, hown] at hco
  exact absurd hco (by decide)

end SmartStore

end AexKernel.Mem
