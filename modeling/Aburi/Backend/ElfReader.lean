import Aburi.Backend.Elf

/-!
# Reading ELF objects

The reader follows the file format and knows nothing of the writer: it takes the
class and the byte order from the identification, finds the section headers
through the file header, the names through the section that the file header
names, the symbols through the section of their type, and the relocations of a
section through the sections of their type that name it.
-/

namespace Aburi.Backend.Elf

open Aburi.Lib

section Records

def readIdent (bytes : List UInt8) : Option (ElfClass × ByteOrder) :=
  match bytes with
  | 0x7F :: 0x45 :: 0x4C :: 0x46 :: cls :: data :: 1 :: _ =>
    match (if cls = 1 then some ElfClass.elf32 else if cls = 2 then some .elf64 else none),
      (if data = 1 then some ByteOrder.lsb else if data = 2 then some .msb else none) with
    | some cls, some data => some (cls, data)
    | _, _ => none
  | _ => none

/-- What the reader takes from the file header. -/
structure FileHeader where
  machine : ℕ
  shoff : ℕ
  flags : ℕ
  shentsize : ℕ
  shnum : ℕ
  shstrndx : ℕ

def readFileHeader (cls : ElfClass) (data : ByteOrder) (bytes : List UInt8) :
    Option FileHeader :=
  let word := cls.wordSize
  match readFields data bytes 16 [2, 2, 4, word, word, word, 4, 2, 2, 2, 2, 2, 2] with
  | some [_, machine, _, _, _, shoff, flags, _, _, _, shentsize, shnum, shstrndx] =>
    some ⟨machine, shoff, flags, shentsize, shnum, shstrndx⟩
  | _ => none

def readHeader (cls : ElfClass) (data : ByteOrder) (bytes : List UInt8) (offset : ℕ) :
    Option HeaderSlot :=
  let word := cls.wordSize
  match readFields data bytes offset [4, 4, word, word, word, word, 4, 4, word, word] with
  | some [name, shType, flags, _, offset, size, link, info, align, entsize] =>
    some ⟨name, shType, flags, offset, size, link, info, align, entsize⟩
  | _ => none

def readSymbol (cls : ElfClass) (data : ByteOrder) (bytes : List UInt8) (offset : ℕ) :
    Option SymtabEntry :=
  match cls with
  | .elf64 =>
    match readFields data bytes offset [4, 1, 1, 2, 8, 8] with
    | some [name, info, other, shndx, value, size] =>
      some ⟨name, info, other, shndx, value, size⟩
    | _ => none
  | .elf32 =>
    match readFields data bytes offset [4, 4, 4, 1, 1, 2] with
    | some [name, value, size, info, other, shndx] =>
      some ⟨name, info, other, shndx, value, size⟩
    | _ => none

structure Rela where
  offset : ℕ
  symbol : ℕ
  type : ℕ
  addend : ℤ

/-- The number in two's complement. -/
def signed (width value : ℕ) : ℤ :=
  if 2 * value < 256 ^ width then value else value - 256 ^ width

def readRela (cls : ElfClass) (data : ByteOrder) (bytes : List UInt8) (offset : ℕ) :
    Option Rela :=
  match cls with
  | .elf64 =>
    match readFields data bytes offset [8, 8, 8] with
    | some [offset, info, addend] =>
      some ⟨offset, info / 2 ^ 32, info % 2 ^ 32, signed 8 addend⟩
    | _ => none
  | .elf32 =>
    match readFields data bytes offset [4, 4, 4] with
    | some [offset, info, addend] => some ⟨offset, info / 2 ^ 8, info % 2 ^ 8, signed 4 addend⟩
    | _ => none

end Records

section Files

/-- Where a symbol is defined; sections are named by the index of their header. -/
inductive Place where
  | undefined
  | common
  | inSection (index : ℕ)
  deriving DecidableEq

structure Symbol where
  name : Name
  binding : ℕ
  type : ℕ
  visibility : ℕ
  place : Place
  value : ℕ
  size : ℕ
  deriving DecidableEq

inductive Target where
  | symbol (name : Name)
  | sectionAt (index : ℕ)
  deriving DecidableEq

structure Relocation where
  offset : ℕ
  type : ℕ
  target : Target
  addend : ℤ
  deriving DecidableEq

inductive Contents where
  | bytes (bytes : List UInt8)
  | nobits (size : ℕ)
  deriving DecidableEq

structure Section where
  index : ℕ
  name : Name
  type : ℕ
  flags : ℕ
  align : ℕ
  entsize : ℕ
  contents : Contents
  relocations : List Relocation
  deriving DecidableEq

structure ElfFile where
  machine : ℕ
  flags : ℕ
  sections : List Section
  symbols : List Symbol
  /-- What `sh_info` of the symbol table says. -/
  firstGlobal : ℕ
  headers : List HeaderSlot

def placeOf (shndx : ℕ) : Place :=
  if shndx = 0 then .undefined else if shndx = shnCommon then .common else .inSection shndx

def resolveSymbol (strings : List UInt8) (entry : SymtabEntry) : Symbol :=
  { name := cString strings entry.name
    binding := entry.info / 16
    type := entry.info % 16
    visibility := entry.other % 4
    place := placeOf entry.shndx
    value := entry.value
    size := entry.size }

/-- The symbol of a section has no name and stands for the section. -/
def targetOf (symbol : Symbol) : Option Target :=
  if symbol.name ≠ [] then some (.symbol symbol.name)
  else
    match symbol.place with
    | .inSection index => some (.sectionAt index)
    | _ => none

def resolveRela (symbols : List Symbol) (rela : Rela) : Option Relocation := do
  let symbol ← symbols[rela.symbol]?
  let target ← targetOf symbol
  pure ⟨rela.offset, rela.type, target, rela.addend⟩

def block (bytes : List UInt8) (slot : HeaderSlot) : List UInt8 :=
  (bytes.drop slot.offset).take slot.size

/-- The relocations of a section of their type. -/
def readRelocations (cls : ElfClass) (data : ByteOrder) (bytes : List UInt8)
    (symbols : List Symbol) (slot : HeaderSlot) : Option (List Relocation) := do
  let relas ← readTable (readRela cls data bytes) slot.entsize slot.offset
    (slot.size / slot.entsize)
  relas.mapM (resolveRela symbols)

/-- The relocations of all sections of their type that name the section. -/
def relocationsOf (cls : ElfClass) (data : ByteOrder) (bytes : List UInt8)
    (symbols : List Symbol) (headers : List HeaderSlot) (index : ℕ) :
    Option (List Relocation) := do
  let parts ← (headers.filter fun slot => slot.shType = shtRela ∧ slot.info = index).mapM
    (readRelocations cls data bytes symbols)
  pure parts.flatten

def readSection (cls : ElfClass) (data : ByteOrder) (bytes names : List UInt8)
    (symbols : List Symbol) (headers : List HeaderSlot) (item : HeaderSlot × ℕ) :
    Option Section := do
  let (slot, index) := item
  let relocations ← relocationsOf cls data bytes symbols headers index
  pure
    { index := index
      name := cString names slot.name
      type := slot.shType
      flags := slot.flags
      align := slot.align
      entsize := slot.entsize
      contents := if slot.shType = shtNobits then .nobits slot.size
        else .bytes (block bytes slot)
      relocations := relocations }

/-- The section belongs to the program and not to the bookkeeping of the format. -/
def isContent (shstrndx strtabIndex : ℕ) (item : HeaderSlot × ℕ) : Bool :=
  item.1.shType != shtNull && item.1.shType != shtSymtab && item.1.shType != shtRela &&
    item.2 != shstrndx && item.2 != strtabIndex

def readElf (bytes : List UInt8) : Option ElfFile := do
  let (cls, data) ← readIdent bytes
  let header ← readFileHeader cls data bytes
  let headers ← readTable (readHeader cls data bytes) header.shentsize header.shoff header.shnum
  let names ← headers[header.shstrndx]?
  let symtab ← headers.find? (·.shType = shtSymtab)
  let strtab ← headers[symtab.link]?
  let entries ← readTable (readSymbol cls data bytes) symtab.entsize symtab.offset
    (symtab.size / symtab.entsize)
  let symbols := entries.map (resolveSymbol (block bytes strtab))
  let sections ← (headers.zipIdx.filter (isContent header.shstrndx symtab.link)).mapM
    (readSection cls data bytes (block bytes names) symbols headers)
  pure
    { machine := header.machine
      flags := header.flags
      sections := sections
      symbols := symbols
      firstGlobal := symtab.info
      headers := headers }

end Files

section Views

/-- The names that are defined or common. -/
def ElfBuilder.definedNames (builder : ElfBuilder) : List Name :=
  builder.symbols.map (·.name) ++ builder.commons.map (·.name)

def ElfBuilder.relocs (builder : ElfBuilder) : List ElfReloc :=
  builder.sections.flatMap (·.relocs)

/-- The names that only relocations know, each once. -/
def ElfBuilder.undefinedNames (builder : ElfBuilder) : List Name :=
  ((builder.relocs.map (·.symbol)).filter fun name =>
    name ≠ [] ∧ name ∉ builder.definedNames).eraseDups

def viewSectionSymbol (i : ℕ) : Symbol :=
  { name := []
    binding := stbLocal
    type := sttSection
    visibility := 0
    place := .inSection (i + 1)
    value := 0
    size := 0 }

def ElfSymbol.binding (symbol : ElfSymbol) : ℕ :=
  if symbol.weak then stbWeak else if symbol.external then stbGlobal else stbLocal

def viewSymbol (symbol : ElfSymbol) : Symbol :=
  { name := symbol.name
    binding := symbol.binding
    type := symbol.type.toNat
    visibility := if symbol.hidden then stvHidden else 0
    place := if symbol.sectionId < 0 then .undefined else .inSection (symbol.sectionId + 1).toNat
    value := symbol.value.toNat
    size := symbol.size.toNat }

def viewCommon (common : ElfCommon) : Symbol :=
  { name := common.name
    binding := stbGlobal
    type := sttObject
    visibility := 0
    place := .common
    value := common.align.toNat
    size := common.size.toNat }

def viewUndefined (name : Name) : Symbol :=
  { name := name
    binding := stbGlobal
    type := sttNotype
    visibility := 0
    place := .undefined
    value := 0
    size := 0 }

/-- The symbols of the file behind the null entry: one for each section, then what was added,
the local ones first, and what only relocations know. -/
def ElfBuilder.viewSymbols (builder : ElfBuilder) : List Symbol :=
  (List.range builder.sections.length).map viewSectionSymbol ++
    builder.localSymbols.map viewSymbol ++ builder.globalSymbols.map viewSymbol ++
    builder.commons.map viewCommon ++ builder.undefinedNames.map viewUndefined

def viewReloc (reloc : ElfReloc) : Relocation :=
  { offset := reloc.offset.toNat
    type := reloc.type.toNat
    target := if reloc.symbol ≠ [] then .symbol reloc.symbol
      else .sectionAt (reloc.sectionId + 1).toNat
    addend := reloc.addend.toInt }

def viewSection (item : ElfSection × ℕ) : Section :=
  { index := item.2 + 1
    name := item.1.name
    type := item.1.shType.toNat
    flags := item.1.shFlags.toNat
    align := item.1.align.toNat
    entsize := item.1.entsize.toNat
    contents := if item.1.nobits then .nobits item.1.nobitsSize.toNat else .bytes item.1.bytes
    relocations := item.1.relocs.map viewReloc }

def ElfBuilder.viewSections (builder : ElfBuilder) : List Section :=
  builder.sections.zipIdx.map viewSection

end Views

section Conditions

/-- The number fits an address of the class. -/
def ElfClass.Fits (cls : ElfClass) (value : ℕ) : Prop := value < 256 ^ cls.wordSize

instance (cls : ElfClass) (value : ℕ) : Decidable (cls.Fits value) :=
  inferInstanceAs (Decidable (_ < _))

/-- The values of the relocation fit the class. -/
structure ElfReloc.Fits (cls : ElfClass) (reloc : ElfReloc) : Prop where
  symbol : 0 ∉ reloc.symbol
  offset : cls.Fits reloc.offset.toNat
  type : cls = .elf32 → reloc.type.toNat < 2 ^ 8
  addend : cls = .elf32 → -2 ^ 31 ≤ reloc.addend.toInt ∧ reloc.addend.toInt < 2 ^ 31

structure ElfSection.Fits (cls : ElfClass) (part : ElfSection) : Prop where
  name : 0 ∉ part.name
  flags : cls.Fits part.shFlags.toNat
  entsize : cls.Fits part.entsize.toNat
  nobitsSize : cls.Fits part.nobitsSize.toNat
  /-- The type says whether the section takes room in the file. -/
  nobits : part.nobits = true ↔ part.shType.toNat = shtNobits
  /-- The section is none of the bookkeeping sections. -/
  notNull : part.shType.toNat ≠ shtNull
  notSymtab : part.shType.toNat ≠ shtSymtab
  notRela : part.shType.toNat ≠ shtRela
  relocs : ∀ reloc ∈ part.relocs, reloc.Fits cls

structure ElfSymbol.Fits (cls : ElfClass) (contentCount : ℕ) (symbol : ElfSymbol) : Prop where
  name : 0 ∉ symbol.name
  value : cls.Fits symbol.value.toNat
  size : cls.Fits symbol.size.toNat
  type : symbol.type.toNat < 16
  place : symbol.sectionId < contentCount
  /-- Only symbols that other objects see have a visibility. -/
  hidden : symbol.hidden = true → symbol.isGlobal = true

structure ElfCommon.Fits (cls : ElfClass) (common : ElfCommon) : Prop where
  name : 0 ∉ common.name
  size : cls.Fits common.size.toNat

/-- The room that names take in a string table. -/
def nameRoom (names : List Name) : ℕ := (names.map (·.length + 1)).sum

namespace ElfBuilder

def symbolCount (builder : ElfBuilder) : ℕ :=
  1 + builder.sections.length + builder.symbols.length + builder.commons.length +
    builder.undefinedNames.length

/-- The headers of the file: the null header, the sections, those of their relocations, and
the three tables. -/
def headerCount (builder : ElfBuilder) : ℕ :=
  1 + builder.sections.length + (builder.sections.filter (·.relocs ≠ [])).length + 3

/-- The names of section headers. -/
def headerNames (builder : ElfBuilder) : List Name :=
  builder.sections.map (·.name) ++
    (builder.sections.filter (·.relocs ≠ [])).map (fun part => text ".rela" ++ part.name) ++
    [text ".symtab", text ".strtab", text ".shstrtab"]

/-- What the builder holds can be said in the format. -/
structure WellFormed (builder : ElfBuilder) : Prop where
  headers : builder.headerCount < 65280
  distinct : builder.definedNames.Nodup
  sections : ∀ part ∈ builder.sections, part.Fits builder.cls
  symbols : ∀ symbol ∈ builder.symbols, symbol.Fits builder.cls builder.sections.length
  commons : ∀ common ∈ builder.commons, common.Fits builder.cls
  symbolCount : builder.symbolCount < match builder.cls with
    | .elf32 => 2 ^ 24
    | .elf64 => 2 ^ 32
  symbolNames : 1 + nameRoom (builder.definedNames ++ builder.undefinedNames) < 2 ^ 32
  headerNames : 1 + nameRoom builder.headerNames < 2 ^ 32

end ElfBuilder

end Conditions

end Aburi.Backend.Elf
