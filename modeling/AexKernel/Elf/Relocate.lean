import AexKernel.Elf.Image

/-! # Relocating modules (`kernel/module/relocator.cpp`)

`load_module` places the sections that are to be in memory, and `relocate` patches them with the
addresses of the symbols. -/

namespace AexKernel.Elf

open Library List

/-! ## Lookups -/

/-- `kernel_symbol`; symbols at address 0 are not kept. -/
structure KernelSymbol where
  name : String
  address : BitVec 64
  address_ne : address ≠ 0

/-- `module_symbol`, with the name that `module_name2addr_raw` compares. -/
structure ModuleSymbol where
  name : String
  addr : BitVec 64

/-- What `relocate` works with. -/
structure Linker where
  image : Image
  alloc : ℕ → BitVec 64
  behind : ℕ → BitVec 64
  kernelSymbols : List KernelSymbol
  modules : List (List ModuleSymbol)

namespace Linker

/-- `sections[k].addr`. -/
def sectionAddr (c : Linker) (k : ℕ) : BitVec 64 :=
  (c.image.placeSections c.alloc).getD k (c.behind k)

def sectionNamed (c : Linker) (name : String) : BitVec 64 :=
  match c.image.sectionHeaders.findIdx? (·.name = name) with
  | some i => c.sectionAddr i
  | none => 0

def symbolNamed (c : Linker) (name : String) : BitVec 64 :=
  match c.image.loadSymbols.find? fun b => b.sectionIndex ≠ 0 ∧ b.name = name with
  | some b => c.sectionAddr b.sectionIndex.toNat + b.address
  | none => 0

/-- `Debug::name2addr(name)`. -/
def name2addr (c : Linker) (name : String) : BitVec 64 :=
  match c.kernelSymbols.find? (·.name = name) with
  | some symbol => symbol.address
  | none => 0

/-- `module_name2addr_raw(name, module)`. -/
def moduleName2addrRaw (c : Linker) (name : String) : BitVec 64 :=
  match c.modules.flatten.find? (·.name = name) with
  | some symbol => symbol.addr
  | none => 0

/-- `S` in `relocate`. -/
def resolve (c : Linker) (symbol : Symbol) : BitVec 64 :=
  let s := c.sectionNamed symbol.name
  let s := if s = 0 then c.symbolNamed symbol.name else s
  let s := if s = 0 ∧ symbol.info >>> 4 ≠ 0 then c.name2addr symbol.name else s
  if s = 0 ∧ symbol.info >>> 4 ≠ 0 then c.moduleName2addrRaw symbol.name else s

/-! ## Relocating -/

/-- A relocation that was applied. -/
structure Applied where
  relocation : Relocation
  S : BitVec 64
  P : BitVec 64
  value : BitVec 64
  width : ℕ

/-- What `relocate` did; the relocations that it reported as unresolved make it fail. -/
structure Outcome where
  applied : List Applied := []
  unresolved : List Relocation := []

/-- What `relocate` returns. -/
def Outcome.success (o : Outcome) : Bool := o.unresolved.isEmpty

/-- The `switch` over the type of a relocation. -/
def patch (c : Linker) (r : Relocation) (S : BitVec 64) : Except Fault Applied :=
  let P := c.sectionAddr r.targetSectionId.toNat + r.addr
  match (r.archInfo &&& 0xFFFFFFFF).toNat with
  -- R_AMD64_64
  | 1 => .ok ⟨r, S, P, S + r.addend, 8⟩
  -- R_AMD64_PC32 and R_AMD64_PLT32
  | 2 | 4 => .ok ⟨r, S, P, (S - P + r.addend).setWidth 32 |>.setWidth 64, 4⟩
  -- R_AMD64_32S
  | 11 => .ok ⟨r, S, P, (S + r.addend).setWidth 32 |>.setWidth 64, 4⟩
  | _ => .error (.kpanic "module: Unknown relocation type encountered")

/-- The loop of `relocate`, from a relocation on. -/
def relocate (c : Linker) : List Relocation → Except Fault Outcome
  | [] => .ok {}
  | r :: rest =>
    let S := c.resolve (vectorGet c.image.loadSymbols r.symbolId.toNat)
    if S = 0 then do
      let o ← c.relocate rest
      return { o with unresolved := r :: o.unresolved }
    else do
      let a ← c.patch r S
      let o ← c.relocate rest
      return { o with applied := a :: o.applied }

/-- The end of `load_module`: `elf.loadRelocations()` and `relocate`. -/
def link (c : Linker) : Except Fault Outcome := do
  let relocations ← c.image.loadRelocations
  c.relocate relocations

/-! ## What a relocation means -/

/-- The address of a symbol of a loaded section, as the entry of the symbol table gives it. -/
def address (c : Linker) (raw : Symbol64) : BitVec 64 :=
  c.sectionAddr raw.symbolIndex.toNat + raw.address

section Resolve

variable {c : Linker} {symbol : Symbol}

end Resolve

variable {c : Linker}

variable {a : Applied}

/-- What the loop has done: it applied the relocations whose symbols it found, with what it found,
and reported the others. -/
structure Splits (c : Linker) (relocations : List Relocation) (o : Outcome) : Prop where
  applied : ∀ a ∈ o.applied, a.relocation ∈ relocations ∧
    a.S = c.resolve (vectorGet c.image.loadSymbols a.relocation.symbolId.toNat) ∧ a.S ≠ 0
  found : ∀ r ∈ relocations, c.resolve (vectorGet c.image.loadSymbols r.symbolId.toNat) ≠ 0 →
    ∃ a ∈ o.applied, a.relocation = r
  reported : ∀ r, r ∈ o.unresolved ↔
    r ∈ relocations ∧ c.resolve (vectorGet c.image.loadSymbols r.symbolId.toNat) = 0

namespace Splits

variable {r : Relocation} {rest : List Relocation} {o : Outcome}

theorem nil (c : Linker) : c.Splits [] {} :=
  ⟨by simp, by simp, by simp⟩

variable {relocations : List Relocation}

end Splits

end Linker

end AexKernel.Elf
