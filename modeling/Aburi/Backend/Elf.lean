import Aburi.Lib.ByteLayout

/-!
# The writer of ELF objects

A builder collects sections, symbols and common symbols; writing lays them out
in one pass over the symbols, one over the relocations, which may add undefined
symbols, and one over the contents, with the section headers at the end and the
file header last.  Strings are sequences of bytes.  The casts to narrow integers
are those of the fields they are written to; they are explicit where a value is
kept in between.
-/

namespace Aburi.Backend.Elf

open Aburi.Lib

inductive ElfClass where
  | elf32
  | elf64
  deriving DecidableEq

/-- A name is a sequence of bytes. -/
abbrev Name := List UInt8

structure ElfReloc where
  offset : UInt64 := 0
  symbol : Name := []
  sectionId : ℤ := -1
  type : UInt32 := 257
  addend : Int64 := 0
  deriving DecidableEq

structure ElfSection where
  name : Name := []
  shType : UInt32 := 1
  shFlags : UInt64 := 0
  align : UInt32 := 1
  entsize : UInt64 := 0
  nobits : Bool := false
  bytes : List UInt8 := []
  nobitsSize : UInt64 := 0
  relocs : List ElfReloc := []
  deriving DecidableEq

def ElfSection.contentSize (part : ElfSection) : ℕ :=
  if part.nobits then part.nobitsSize.toNat else part.bytes.length

structure ElfSymbol where
  name : Name := []
  sectionId : ℤ := -1
  value : UInt64 := 0
  size : UInt64 := 0
  type : UInt8 := 0
  external : Bool := false
  weak : Bool := false
  hidden : Bool := false
  deriving DecidableEq

structure ElfCommon where
  name : Name := []
  size : UInt64 := 0
  align : UInt32 := 1
  deriving DecidableEq

structure ElfBuilder where
  machine : UInt16 := 183
  cls : ElfClass := .elf64
  data : ByteOrder := .lsb
  eFlags : UInt32 := 0
  sections : List ElfSection := []
  symbols : List ElfSymbol := []
  commons : List ElfCommon := []
  deriving DecidableEq

section Constants

def etRel : ℕ := 1
def shtNull : ℕ := 0
def shtSymtab : ℕ := 2
def shtStrtab : ℕ := 3
def shtRela : ℕ := 4
def shtNobits : ℕ := 8
def shfInfoLink : ℕ := 0x40
def shnCommon : ℕ := 0xFFF2
def stbLocal : ℕ := 0
def stbGlobal : ℕ := 1
def stbWeak : ℕ := 2
def sttNotype : ℕ := 0
def sttObject : ℕ := 1
def sttSection : ℕ := 3
def stvHidden : ℕ := 2

namespace ElfClass

/-- The size of addresses, offsets and sizes, which tables are aligned to as well. -/
def wordSize : ElfClass → ℕ
  | elf32 => 4
  | elf64 => 8

def ehdrSize : ElfClass → ℕ
  | elf32 => 52
  | elf64 => 64

def shdrSize : ElfClass → ℕ
  | elf32 => 40
  | elf64 => 64

def symEntsize : ElfClass → ℕ
  | elf32 => 16
  | elf64 => 24

def relaEntsize : ElfClass → ℕ
  | elf32 => 12
  | elf64 => 24

end ElfClass

end Constants

section StringTables

structure StringTable where
  bytes : List UInt8 := [0]
  offsets : List (Name × ℕ) := []

/-- The offset of a text, which is appended where it is new. -/
def StringTable.intern (table : StringTable) (text : Name) : ℕ × StringTable :=
  if text = [] then (0, table)
  else
    match table.offsets.lookup text with
    | some found => (found, table)
    | none =>
      let offset := table.bytes.length % 2 ^ 32
      (offset, { bytes := table.bytes ++ (text ++ [0]),
                 offsets := (text, offset) :: table.offsets })

end StringTables

section Symbols

structure SymtabEntry where
  name : ℕ := 0
  info : ℕ := 0
  other : ℕ := 0
  shndx : ℕ := 0
  value : ℕ := 0
  size : ℕ := 0
  deriving DecidableEq

/-- The symbols written so far, with the index of each name. -/
structure SymbolTables where
  strtab : StringTable := {}
  symtab : List SymtabEntry := []
  byName : List (Name × ℕ) := []

/-- An entry at the end of the symbol table, under a name. -/
def SymbolTables.addNamed (tables : SymbolTables) (name : Name) (entry : SymtabEntry) :
    SymbolTables :=
  let (offset, strtab) := tables.strtab.intern name
  { strtab := strtab
    symtab := tables.symtab ++ [{ entry with name := offset }]
    byName := (name, tables.symtab.length % 2 ^ 32) :: tables.byName }

def SymbolTables.addAll (tables : SymbolTables) (entries : List (Name × SymtabEntry)) :
    SymbolTables :=
  entries.foldl (fun tables entry => tables.addNamed entry.1 entry.2) tables

def sectionEntry (i : ℕ) : SymtabEntry :=
  { info := (stbLocal <<< 4) ||| sttSection, shndx := (i + 1) % 2 ^ 16 }

def ElfSymbol.isGlobal (symbol : ElfSymbol) : Bool := symbol.external || symbol.weak

def ElfSymbol.shndx (symbol : ElfSymbol) : ℕ :=
  if symbol.sectionId < 0 then 0 else (symbol.sectionId + 1).toNat % 2 ^ 16

/-- A local symbol keeps the default visibility. -/
def localEntry (symbol : ElfSymbol) : SymtabEntry :=
  { info := (stbLocal <<< 4) ||| symbol.type.toNat
    shndx := symbol.shndx
    value := symbol.value.toNat
    size := symbol.size.toNat }

def globalEntry (symbol : ElfSymbol) : SymtabEntry :=
  { info := ((if symbol.weak then stbWeak else stbGlobal) <<< 4) ||| symbol.type.toNat
    other := if symbol.hidden then stvHidden else 0
    shndx := symbol.shndx
    value := symbol.value.toNat
    size := symbol.size.toNat }

def commonEntry (common : ElfCommon) : SymtabEntry :=
  { info := (stbGlobal <<< 4) ||| sttObject
    shndx := shnCommon
    value := common.align.toNat
    size := common.size.toNat }

def undefinedEntry : SymtabEntry := { info := (stbGlobal <<< 4) ||| sttNotype }

namespace ElfBuilder

def localSymbols (builder : ElfBuilder) : List ElfSymbol :=
  builder.symbols.filter (!·.isGlobal)

def globalSymbols (builder : ElfBuilder) : List ElfSymbol :=
  builder.symbols.filter (·.isGlobal)

/-- The tables after the sections and the local symbols. -/
def localTables (builder : ElfBuilder) : SymbolTables :=
  let start : SymbolTables :=
    { symtab := {} :: (List.range builder.sections.length).map sectionEntry }
  start.addAll (builder.localSymbols.map fun symbol => (symbol.name, localEntry symbol))

def firstGlobal (builder : ElfBuilder) : ℕ := builder.localTables.symtab.length % 2 ^ 32

def definedTables (builder : ElfBuilder) : SymbolTables :=
  let tables := builder.localTables.addAll
    (builder.globalSymbols.map fun symbol => (symbol.name, globalEntry symbol))
  tables.addAll (builder.commons.map fun common => (common.name, commonEntry common))

end ElfBuilder

/-- The index of a name; a name that is not known becomes an undefined symbol. -/
def SymbolTables.symbolIndex (tables : SymbolTables) (name : Name) : ℕ × SymbolTables :=
  match tables.byName.lookup name with
  | some found => (found, tables)
  | none => (tables.symtab.length % 2 ^ 32, tables.addNamed name undefinedEntry)

end Symbols

section Relocations

/-- The symbol of a section is behind the null entry at the place of the section. -/
def sectionSymbol (contentCount : ℕ) (sectionId : ℤ) : Option ℕ :=
  if 0 ≤ sectionId ∧ sectionId < contentCount then some (sectionId.toNat + 1) else none

def relocIndex (contentCount : ℕ) (tables : SymbolTables) (reloc : ElfReloc) :
    Except String (ℕ × SymbolTables) :=
  if reloc.symbol ≠ [] then .ok (tables.symbolIndex reloc.symbol)
  else if 0 ≤ reloc.sectionId then
    match sectionSymbol contentCount reloc.sectionId with
    | none => .error "relocation against an unknown section"
    | some index => .ok (index, tables)
  else .error "relocation with no target"

def relocFields (cls : ElfClass) (index : ℕ) (reloc : ElfReloc) : List (ℕ × ℕ) :=
  match cls with
  | .elf64 =>
    [(8, reloc.offset.toNat), (8, index <<< 32 ||| reloc.type.toNat),
      (8, reloc.addend.toUInt64.toNat)]
  | .elf32 =>
    [(4, reloc.offset.toNat), (4, index <<< 8 ||| (reloc.type.toNat &&& 0xff)),
      (4, reloc.addend.toUInt64.toNat)]

def writeReloc (cls : ElfClass) (data : ByteOrder) (index : ℕ) (reloc : ElfReloc) :
    List UInt8 :=
  writeFields data (relocFields cls index reloc)

/-- The relocations of one section. -/
def writeRelocs (cls : ElfClass) (data : ByteOrder) (contentCount : ℕ) :
    SymbolTables → List ElfReloc → Except String (List UInt8 × SymbolTables)
  | tables, [] => .ok ([], tables)
  | tables, reloc :: relocs => do
      let (index, tables) ← relocIndex contentCount tables reloc
      let (bytes, tables) ← writeRelocs cls data contentCount tables relocs
      pure (writeReloc cls data index reloc ++ bytes, tables)

/-- The relocations of all sections, one payload for each. -/
def relaPayloads (cls : ElfClass) (data : ByteOrder) (contentCount : ℕ) :
    SymbolTables → List ElfSection → Except String (List (List UInt8) × SymbolTables)
  | tables, [] => .ok ([], tables)
  | tables, part :: parts => do
      let (payload, tables) ← writeRelocs cls data contentCount tables part.relocs
      let (payloads, tables) ← relaPayloads cls data contentCount tables parts
      pure (payload :: payloads, tables)

end Relocations

section Layouts

def symbolFields (cls : ElfClass) (entry : SymtabEntry) : List (ℕ × ℕ) :=
  match cls with
  | .elf64 =>
    [(4, entry.name), (1, entry.info), (1, entry.other), (2, entry.shndx), (8, entry.value),
      (8, entry.size)]
  | .elf32 =>
    [(4, entry.name), (4, entry.value), (4, entry.size), (1, entry.info), (1, entry.other),
      (2, entry.shndx)]

def writeSymbol (cls : ElfClass) (data : ByteOrder) (entry : SymtabEntry) : List UInt8 :=
  writeFields data (symbolFields cls entry)

structure HeaderSlot where
  name : ℕ := 0
  shType : ℕ := shtNull
  flags : ℕ := 0
  offset : ℕ := 0
  size : ℕ := 0
  link : ℕ := 0
  info : ℕ := 0
  align : ℕ := 0
  entsize : ℕ := 0
  deriving DecidableEq

def headerFields (cls : ElfClass) (slot : HeaderSlot) : List (ℕ × ℕ) :=
  let word := cls.wordSize
  [(4, slot.name), (4, slot.shType), (word, slot.flags), (word, 0), (word, slot.offset),
    (word, slot.size), (4, slot.link), (4, slot.info), (word, slot.align), (word, slot.entsize)]

def writeHeader (cls : ElfClass) (data : ByteOrder) (slot : HeaderSlot) : List UInt8 :=
  writeFields data (headerFields cls slot)

/-- The file so far, with the headers of what is in it and their names. -/
structure Layout where
  shstrtab : StringTable := {}
  headers : List HeaderSlot := [{}]
  file : List UInt8 := []

/-- A block behind what the file holds, at the next multiple of the alignment. -/
def Layout.put (layout : Layout) (name : Name) (alignment : ℕ) (slot : HeaderSlot)
    (content : List UInt8) : Layout :=
  let (offset, shstrtab) := layout.shstrtab.intern name
  let file := padTo alignment layout.file
  { shstrtab := shstrtab
    headers := layout.headers ++
      [{ slot with name := offset, offset := file.length, size := content.length }]
    file := file ++ content }

/-- A header for a section that takes no room in the file. -/
def Layout.putNobits (layout : Layout) (name : Name) (slot : HeaderSlot) (size : ℕ) : Layout :=
  let (offset, shstrtab) := layout.shstrtab.intern name
  { shstrtab := shstrtab
    headers := layout.headers ++
      [{ slot with name := offset, offset := layout.file.length, size := size }]
    file := layout.file }

def sectionSlot (part : ElfSection) : HeaderSlot :=
  { shType := part.shType.toNat
    flags := part.shFlags.toNat
    align := part.align.toNat
    entsize := part.entsize.toNat }

def Layout.putSection (layout : Layout) (part : ElfSection) : Layout :=
  if part.nobits then layout.putNobits part.name (sectionSlot part) part.contentSize
  else
    layout.put part.name (if part.align = 0 then 1 else part.align.toNat) (sectionSlot part)
      part.bytes

def text (string : String) : Name := string.toList.map fun character => UInt8.ofNat character.toNat

def relaSlot (cls : ElfClass) (symtabIndex i : ℕ) : HeaderSlot :=
  { shType := shtRela
    flags := shfInfoLink
    link := symtabIndex
    info := (i + 1) % 2 ^ 32
    align := cls.wordSize
    entsize := cls.relaEntsize }

/-- The relocations of the section at the place, if it has any. -/
def Layout.putRela (cls : ElfClass) (symtabIndex : ℕ) (layout : Layout)
    (item : (ElfSection × List UInt8) × ℕ) : Layout :=
  let ((part, payload), i) := item
  if payload = [] then layout
  else
    layout.put (text ".rela" ++ part.name) cls.wordSize (relaSlot cls symtabIndex i) payload

def symtabSlot (cls : ElfClass) (strtabIndex firstGlobal : ℕ) : HeaderSlot :=
  { shType := shtSymtab
    link := strtabIndex
    info := firstGlobal
    align := cls.wordSize
    entsize := cls.symEntsize }

def strtabSlot : HeaderSlot := { shType := shtStrtab, align := 1 }

namespace ElfBuilder

def relaCount (payloads : List (List UInt8)) : ℕ := (payloads.filter (· ≠ [])).length

def symtabIndex (builder : ElfBuilder) (payloads : List (List UInt8)) : ℕ :=
  (1 + builder.sections.length + relaCount payloads) % 2 ^ 32

/-- The contents of the file behind the room for its header. -/
def contents (builder : ElfBuilder) (payloads : List (List UInt8)) (tables : SymbolTables) :
    Layout :=
  let cls := builder.cls
  let symtabIndex := builder.symtabIndex payloads
  let layout : Layout := { file := List.replicate cls.ehdrSize 0 }
  let layout := builder.sections.foldl Layout.putSection layout
  let layout := ((builder.sections.zip payloads).zipIdx).foldl
    (Layout.putRela cls symtabIndex) layout
  let layout := layout.put (text ".symtab") cls.wordSize
    (symtabSlot cls ((symtabIndex + 1) % 2 ^ 32) builder.firstGlobal)
    (tables.symtab.flatMap (writeSymbol cls builder.data))
  let layout := layout.put (text ".strtab") 1 strtabSlot tables.strtab.bytes
  layout.put (text ".shstrtab") 1 strtabSlot (layout.shstrtab.intern (text ".shstrtab")).2.bytes

def ident (cls : ElfClass) (data : ByteOrder) : List UInt8 :=
  [0x7F, 0x45, 0x4C, 0x46, if cls = .elf64 then 2 else 1, if data = .msb then 2 else 1, 1] ++
    List.replicate 9 0

def fileHeaderFields (builder : ElfBuilder) (shoff headerCount shstrtabIndex : ℕ) :
    List (ℕ × ℕ) :=
  let word := builder.cls.wordSize
  [(2, etRel), (2, builder.machine.toNat), (4, 1), (word, 0), (word, 0), (word, shoff),
    (4, builder.eFlags.toNat), (2, builder.cls.ehdrSize), (2, 0), (2, 0),
    (2, builder.cls.shdrSize), (2, headerCount), (2, shstrtabIndex)]

def fileHeader (builder : ElfBuilder) (shoff headerCount shstrtabIndex : ℕ) : List UInt8 :=
  ident builder.cls builder.data ++
    writeFields builder.data (builder.fileHeaderFields shoff headerCount shstrtabIndex)

/-- The bytes of the file: the headers follow the contents, and the room at the front is
overwritten last. -/
def assemble (builder : ElfBuilder) (payloads : List (List UInt8)) (tables : SymbolTables) :
    List UInt8 :=
  let layout := builder.contents payloads tables
  let padded := padTo builder.cls.wordSize layout.file
  let file := padded ++ layout.headers.flatMap (writeHeader builder.cls builder.data)
  let header := builder.fileHeader padded.length layout.headers.length
    ((builder.symtabIndex payloads + 2) % 2 ^ 32)
  header ++ file.drop header.length

def write (builder : ElfBuilder) : Except String (List UInt8) := do
  let (payloads, tables) ← relaPayloads builder.cls builder.data builder.sections.length
    builder.definedTables builder.sections
  pure (builder.assemble payloads tables)

end ElfBuilder

end Layouts

end Aburi.Backend.Elf
