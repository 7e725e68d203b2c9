import AexKernel.Elf.Relocate

/-! # References between modules (`module.hpp`, `kernel/module/loader.cpp`)

`relocate` enters the module that it works on into `referencedBy` of each loaded module in which it
finds a symbol. -/

namespace AexKernel.Elf

open Library List Function

section Lists

variable {μ : Type} [DecidableEq μ]

/-- `addReferencedBy(referencer)` and `addReference(reference)`. -/
def addReference (l : List μ) (m : μ) : List μ := if m ∈ l then l else l ++ [m]

/-- `removeReferencedBy(referencer)`. -/
def removeReferencedBy (l : List μ) (referencer : μ) : List μ :=
  match l with
  | [] => []
  | m :: rest => if m ≠ referencer then m :: rest else rest

variable {l : List μ}

theorem mem_addReference {m x : μ} : x ∈ addReference l m ↔ x ∈ l ∨ x = m := by
  unfold addReference
  split_ifs with hm
  · exact ⟨Or.inl, fun h => h.elim id fun he => he ▸ hm⟩
  · rw [mem_append, mem_singleton]

theorem nodup_addReference (h : l.Nodup) (m : μ) : (addReference l m).Nodup := by
  unfold addReference
  split_ifs with hm
  · exact h
  · exact h.append (nodup_singleton m) fun x hx hxm => hm (mem_singleton.mp hxm ▸ hx)

theorem addReference_idem (l : List μ) (m : μ) :
    addReference (addReference l m) m = addReference l m :=
  if_pos (mem_addReference.mpr (Or.inr rfl))

theorem mem_remove_add_iff {m : μ} :
    (∀ x, x ∈ removeReferencedBy (addReference l m) m ↔ x ∈ l) ↔ l = [] ∨ m ∈ l.tail := by
  cases l with
  | nil => simp [addReference, removeReferencedBy]
  | cons a rest =>
    have hc : (a :: rest = [] ∨ m ∈ (a :: rest).tail) ↔ m ∈ rest := by simp
    rw [hc]
    by_cases ha : a = m
    · have hd : addReference (a :: rest) m = a :: rest := if_pos (ha ▸ mem_cons_self)
      rw [hd, removeReferencedBy, if_neg (not_not.mpr ha)]
      refine ⟨fun h => (h m).mpr (ha ▸ mem_cons_self), fun h x => ?_⟩
      rw [mem_cons]
      exact ⟨Or.inr, fun hx => hx.elim (fun he => (he.trans ha) ▸ h) id⟩
    have hk : removeReferencedBy (addReference (a :: rest) m) m = addReference (a :: rest) m := by
      unfold addReference
      split_ifs
      · exact if_pos ha
      · exact if_pos ha
    rw [hk]
    constructor
    · intro h
      have hi := (h m).mp (mem_addReference.mpr (Or.inr rfl))
      exact (mem_cons.mp hi).resolve_left (Ne.symm ha)
    · intro h x
      rw [addReference, if_pos (mem_cons_of_mem a h)]

end Lists

/-- `referencedBy` of the loaded modules, by their positions in `modules`, and `references` of the
module that is being loaded. -/
structure References (μ : Type) where
  referencedBy : ℕ → List μ
  references : List ℕ := []

variable {μ : Type} [DecidableEq μ]

/-- `~Module()` of `module`. -/
def References.destroy (s : References μ) (module : μ) : ℕ → List μ :=
  s.references.foldl (fun l i => update l i (removeReferencedBy (l i) module)) s.referencedBy

namespace Linker

/-- The loaded module in which `relocate` finds a symbol, if it looks there. -/
def moduleOf (c : Linker) (symbol : Symbol) : Option ℕ :=
  if c.sectionNamed symbol.name = 0 ∧ c.symbolNamed symbol.name = 0 ∧ symbol.info >>> 4 ≠ 0 ∧
      c.name2addr symbol.name = 0 ∧ c.moduleName2addrRaw symbol.name ≠ 0 then
    c.modules.findIdx? (·.any (·.name = symbol.name))
  else none

/-- What `relocate` enters for a relocation of `module`. -/
def refer (c : Linker) (module : μ) (s : References μ) (r : Relocation) : References μ :=
  match c.moduleOf (vectorGet c.image.loadSymbols r.symbolId.toNat) with
  | none => s
  | some i =>
    ⟨update s.referencedBy i (addReference (s.referencedBy i) module), addReference s.references i⟩

/-- `load_module` from `elf.loadRelocations()` on. -/
def loadModule (c : Linker) (module : μ) (name : String) (names : List String)
    (referencedBy : ℕ → List μ) : Except Fault (Bool × (ℕ → List μ)) := do
  let relocations ← c.image.loadRelocations
  let o ← c.relocate relocations
  let s := relocations.foldl (c.refer module) ⟨referencedBy, []⟩
  if ¬ o.success then return (false, s.destroy module)
  else if name ∈ names then return (false, s.destroy module)
  else return (true, s.referencedBy)

/-- A relocation of the module is resolved in the loaded module `i`. -/
def Refers (c : Linker) (i : ℕ) : Prop :=
  ∃ relocations, c.image.loadRelocations = .ok relocations ∧
    ∃ r ∈ relocations, c.moduleOf (vectorGet c.image.loadSymbols r.symbolId.toNat) = some i

/-! ## The lists after a load that fails -/

/-- The state of the references between two relocations. -/
structure Entered (module : μ) (before : ℕ → List μ) (s : References μ) : Prop where
  nodup : s.references.Nodup
  lists : ∀ i, s.referencedBy i =
    if i ∈ s.references then addReference (before i) module else before i

variable {module : μ} {before : ℕ → List μ} {s : References μ}

variable {c : Linker}

theorem Entered.refer (h : Entered module before s) (r : Relocation) :
    Entered module before (c.refer module s r) := by
  unfold Linker.refer
  split
  · exact h
  next j _ =>
    refine ⟨nodup_addReference h.nodup j, fun i => ?_⟩
    dsimp only
    by_cases hi : i = j
    · rw [hi, update_self, if_pos (mem_addReference.mpr (Or.inr rfl)), h.lists j]
      split_ifs
      · exact addReference_idem _ _
      · rfl
    rw [update_of_ne hi, h.lists i]
    refine if_congr ?_ rfl rfl
    rw [mem_addReference]
    exact ⟨Or.inl, fun hm => hm.resolve_right hi⟩

theorem mem_references_refer {r : Relocation} {i : ℕ} :
    i ∈ (c.refer module s r).references ↔ i ∈ s.references ∨
      c.moduleOf (vectorGet c.image.loadSymbols r.symbolId.toNat) = some i := by
  unfold Linker.refer
  split
  · next hn => simp [hn]
  · next j hj => rw [hj, mem_addReference, Option.some_inj, eq_comm (a := i)]

theorem Entered.foldl (h : Entered module before s) (rs : List Relocation) :
    Entered module before (rs.foldl (c.refer module) s) ∧
      ∀ i, i ∈ (rs.foldl (c.refer module) s).references ↔ i ∈ s.references ∨
        ∃ r ∈ rs,
          c.moduleOf (vectorGet c.image.loadSymbols r.symbolId.toNat) = some i := by
  induction rs generalizing s with
  | nil => exact ⟨h, fun i => by simp⟩
  | cons r rest ih =>
    obtain ⟨he, hm⟩ := ih (h.refer r)
    refine ⟨he, fun i => (hm i).trans ?_⟩
    rw [mem_references_refer, or_assoc]
    simp only [mem_cons, exists_eq_or_imp]

omit [DecidableEq μ] in
theorem foldl_update {f : List μ → List μ} {targets : List ℕ} (hn : targets.Nodup)
    (l : ℕ → List μ) (i : ℕ) :
    targets.foldl (fun l j => update l j (f (l j))) l i = if i ∈ targets then f (l i) else l i := by
  induction targets generalizing l with
  | nil => rfl
  | cons j rest ih =>
    obtain ⟨hj, hr⟩ := nodup_cons.mp hn
    rw [foldl_cons, ih hr]
    by_cases hi : i = j
    · rw [hi, if_neg hj, update_self, if_pos mem_cons_self]
    rw [update_of_ne hi]
    refine if_congr ?_ rfl rfl
    rw [mem_cons]
    exact ⟨Or.inr, fun hm => hm.resolve_left hi⟩

theorem Entered.destroy (h : Entered module before s) (i : ℕ) : s.destroy module i =
      if i ∈ s.references then removeReferencedBy (addReference (before i) module) module
      else before i := by
  rw [References.destroy, foldl_update (f := (removeReferencedBy · module)) h.nodup, h.lists i]
  split_ifs <;> rfl

/-- A load that fails, or is rejected for its name, leaves the loaded modules with the referencers
that they had exactly when each module that it refers to had none (or had the pointer of the new
module already, and not in the first place). -/
theorem loadModule_noTrace_iff (c : Linker) (module : μ) (name : String) (names : List String)
    (before : ℕ → List μ) {after : ℕ → List μ}
    (hload : c.loadModule module name names before = .ok (false, after)) :
    (∀ i m, m ∈ after i ↔ m ∈ before i) ↔
      ∀ i, c.Refers i → before i = [] ∨ module ∈ (before i).tail := by
  obtain ⟨relocations, hrel, hload⟩ := bind_eq_ok.mp hload
  obtain ⟨o, -, hload⟩ := bind_eq_ok.mp hload
  have hnew : Entered module before ⟨before, []⟩ := ⟨nodup_nil, fun _ => (if_neg not_mem_nil).symm⟩
  obtain ⟨hen, hmem⟩ := hnew.foldl (c := c) relocations
  obtain rfl : (relocations.foldl (c.refer module) ⟨before, []⟩).destroy module = after := by
    split_ifs at hload <;> cases hload <;> rfl
  refine forall_congr' fun i => ?_
  have hre : i ∈ (relocations.foldl (c.refer module) ⟨before, []⟩).references ↔ c.Refers i := by
    rw [hmem i, or_iff_right not_mem_nil]
    refine ⟨fun h => ⟨relocations, hrel, h⟩, ?_⟩
    rintro ⟨relocations', hre', h⟩
    cases hrel.symm.trans hre'
    exact h
  rw [hen.destroy i]
  by_cases hi : c.Refers i
  · rw [if_pos (hre.mpr hi)]
    exact mem_remove_add_iff.trans (by rw [imp_iff_right hi])
  · rw [if_neg fun h => hi (hre.mp h)]
    exact iff_of_true (fun _ => Iff.rfl) fun h => absurd h hi

/-- A module that uses `f`, which a loaded module has, and `g`, which nobody has. -/
def usesTwo : Linker where
  image :=
    { sectionHeaders :=
        [{ name := "", type := .unused },
          { name := ".text", type := .program, flags := 6, size := 0x20 },
          { name := ".symtab", type := .symtab },
          { name := ".rela.text", type := .reloca, link := 2, info := 1,
            entries := [⟨0x4, 0x100000001, 0⟩, ⟨0xC, 0x200000001, 0⟩] }]
      strings := fun offset => if offset = 1 then "f" else "g"
      symtab := [{}, { nameOffset := 1, info := 0x10 }, { nameOffset := 3, info := 0x10 }]
      single := by decide }
  alloc i := 0x1000 * BitVec.ofNat 64 i
  behind _ := 0
  kernelSymbols := []
  modules := [[⟨"f", 0x5000⟩]]

theorem loadModule_noTrace_iff_first : ∃ after : ℕ → List ℕ,
    usesTwo.loadModule 9 "new" ["a"] (fun _ => []) = .ok (false, after) ∧
      ∀ i m, m ∈ after i ↔ m ∈ ([] : List ℕ) :=
  ⟨_, rfl, (loadModule_noTrace_iff usesTwo 9 "new" ["a"] (fun _ => []) rfl).mpr
    fun _ _ => Or.inl rfl⟩

theorem not_noTrace_second : ∃ after : ℕ → List ℕ,
    usesTwo.loadModule 9 "new" ["a"] (fun _ => [7]) = .ok (false, after) ∧ after 0 = [7, 9] :=
  ⟨_, rfl, by decide⟩

end Linker

end AexKernel.Elf
