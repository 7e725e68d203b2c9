import AexKernel.Basic

/-! # ELF files (`kernel/elf.cpp`, `include/aex/elf.hpp`)

The parts of an ELF file that the kernel looks at. -/

namespace AexKernel.Elf

/-! ## Headers and tables -/

/-- `sc_type_t`. -/
inductive SectionType
  | unused | program | symtab | strtab | reloca | noData | reloc | other
  deriving DecidableEq, Repr, Inhabited

/-- `relocation_addend64`. -/
structure RelocationAddend64 where
  addr : BitVec 64
  info : BitVec 64
  addend : BitVec 64
  deriving DecidableEq, Repr

/-- `section_header_agn`, with the entries that a section of relocations has in the file. -/
structure SectionHeader where
  name : String
  type : SectionType
  flags : BitVec 32 := 0
  size : BitVec 64 := 0
  address : BitVec 64 := 0
  fileOffset : BitVec 64 := 0
  link : BitVec 32 := 0
  info : BitVec 32 := 0
  entries : List RelocationAddend64 := []
  deriving DecidableEq, Repr, Inhabited

/-- `symbol64`. -/
structure Symbol64 where
  nameOffset : BitVec 32 := 0
  info : BitVec 8 := 0
  symbolIndex : BitVec 16 := 0
  address : BitVec 64 := 0
  deriving DecidableEq, Repr

/-- `symbol_agn`. -/
structure Symbol where
  name : String := ""
  sectionIndex : BitVec 16 := 0
  info : BitVec 8 := 0
  address : BitVec 64 := 0
  deriving DecidableEq, Repr, Inhabited

/-- `ELF::relocation`. -/
structure Relocation where
  addr : BitVec 64
  archInfo : BitVec 64
  addend : BitVec 64
  targetSectionId : BitVec 32
  symbolId : BitVec 32
  deriving DecidableEq, Repr

/-- An object file: its section headers, its strings by their offsets in `.strtab` and the entries of
its one `.symtab`. -/
structure Image where
  sectionHeaders : List SectionHeader
  strings : BitVec 32 → String
  symtab : List Symbol64
  single : sectionHeaders.countP (·.name = ".symtab") = 1

/-- `Vector::operator[]`: the first element stands for those that are not there. -/
def vectorGet {α : Type} [Inhabited α] (l : List α) (i : ℕ) : α := l.getD i (l.headD default)

/-- `SC_ALLOC` and a size: what `load_module` places and `Elf64Executor::exec` loads. -/
def SectionHeader.IsLoaded (h : SectionHeader) : Prop := h.flags &&& 2 ≠ 0 ∧ h.size ≠ 0
deriving Decidable

/-! ## Object files -/

namespace Image

/-- A symbol as `loadSymbols64` stores it. -/
def symbolOf (image : Image) (raw : Symbol64) : Symbol :=
  if raw.nameOffset = 0 ∨ image.strings raw.nameOffset = "" then
    { name := (vectorGet image.sectionHeaders raw.symbolIndex.toNat).name
      sectionIndex := raw.symbolIndex }
  else
    { name := image.strings raw.nameOffset
      sectionIndex := raw.symbolIndex
      info := raw.info
      address := raw.address }

/-- `loadSymbols64()`. -/
def loadSymbols (image : Image) : List Symbol :=
  if image.sectionHeaders.any (·.name = ".symtab") then image.symtab.map image.symbolOf else []

/-- `symbol_table_id`. -/
def symbolTableId (image : Image) : ℕ :=
  (image.sectionHeaders.findIdx? (·.name = ".symtab")).getD 0

/-- `loadRelocationsFromSection64(section)`, from an entry on. -/
def loadRelocationsFromSection (image : Image) (header : SectionHeader) :
    List RelocationAddend64 → Except Fault (List Relocation)
  | [] => .ok []
  | entry :: rest =>
    let symbolId := (entry.info >>> 32).setWidth 32
    if symbolId = 0 then loadRelocationsFromSection image header rest
    else if header.link.toNat ≠ image.symbolTableId then
      .error (.assertion "section.link == symbol_table_id")
    else do
      let relocations ← loadRelocationsFromSection image header rest
      return ⟨entry.addr, entry.info, entry.addend, header.info, symbolId⟩ :: relocations

/-- `loadRelocations64()`, from a section on. -/
def loadRelocationsFrom (image : Image) : List SectionHeader → Except Fault (List Relocation)
  | [] => .ok []
  | header :: rest =>
    if header.type = .reloc then .error (.assertion "section_header.type != SC_RELOC")
    else if header.type ≠ .reloca then loadRelocationsFrom image rest
    else do
      let relocations ← image.loadRelocationsFromSection header header.entries
      return relocations ++ (← loadRelocationsFrom image rest)

/-- `loadRelocations64()`. -/
def loadRelocations (image : Image) : Except Fault (List Relocation) :=
  image.loadRelocationsFrom image.sectionHeaders

/-- The addresses of `sections` after `load_module` has placed them where `alloc` says. -/
def placeSections (image : Image) (alloc : ℕ → BitVec 64) : List (BitVec 64) :=
  image.sectionHeaders.mapIdx fun i header => if header.IsLoaded then alloc i else 0

end Image

end AexKernel.Elf
