import Aburi.Backend.MachO

/-!
# Reading Mach-O objects

The reader follows the file format and knows nothing of the writer: it walks the
load commands, takes the sections from the segment command, the symbols from the
symbol table command, and their groups from the dynamic symbol table command.
-/

namespace Aburi.Backend.MachO

open Aburi.Lib

section Commands

/-- The commands with their offsets, from an offset on. -/
def readCommands (bytes : List UInt8) : ℕ → ℕ → Option (List (ℕ × ℕ))
  | 0, _ => some []
  | count + 1, offset =>
    match readFields .lsb bytes offset [4, 4] with
    | some [command, size] =>
      (readCommands bytes count (offset + size)).map ((command, offset) :: ·)
    | _ => none

def findCommand (commands : List (ℕ × ℕ)) (command : ℕ) : Option ℕ :=
  (commands.find? (·.1 = command)).map Prod.snd

/-- A name that fills sixteen bytes or ends before. -/
def readName16 (bytes : List UInt8) (offset : ℕ) : Name :=
  ((bytes.drop offset).take 16).takeWhile (· != 0)

structure SectionHeader where
  sectname : Name
  segname : Name
  addr : ℕ
  size : ℕ
  offset : ℕ
  align : ℕ
  reloff : ℕ
  nreloc : ℕ
  flags : ℕ

def readSectionHeader (bytes : List UInt8) (offset : ℕ) : Option SectionHeader :=
  match readFields .lsb bytes (offset + 32) [8, 8, 4, 4, 4, 4, 4, 4, 4, 4] with
  | some [addr, size, fileOffset, align, reloff, nreloc, flags, _, _, _] =>
    some ⟨readName16 bytes offset, readName16 bytes (offset + 16), addr, size, fileOffset, align,
      reloff, nreloc, flags⟩
  | _ => none

def readSegment (bytes : List UInt8) (offset : ℕ) : Option (List SectionHeader) :=
  match readFields .lsb bytes (offset + 24) [8, 8, 8, 8, 4, 4, 4, 4] with
  | some [_, _, _, _, _, _, nsects, _] =>
    readTable (readSectionHeader bytes) 80 (offset + 72) nsects
  | _ => none

structure SymtabCommand where
  symoff : ℕ
  nsyms : ℕ
  stroff : ℕ
  strsize : ℕ

def readSymtabCommand (bytes : List UInt8) (offset : ℕ) : Option SymtabCommand :=
  match readFields .lsb bytes (offset + 8) [4, 4, 4, 4] with
  | some [symoff, nsyms, stroff, strsize] => some ⟨symoff, nsyms, stroff, strsize⟩
  | _ => none

structure DysymtabCommand where
  ilocalsym : ℕ
  nlocalsym : ℕ
  iextdefsym : ℕ
  nextdefsym : ℕ
  iundefsym : ℕ
  nundefsym : ℕ

def readDysymtabCommand (bytes : List UInt8) (offset : ℕ) : Option DysymtabCommand :=
  match readFields .lsb bytes (offset + 8) [4, 4, 4, 4, 4, 4] with
  | some [ilocal, nlocal, iextdef, nextdef, iundef, nundef] =>
    some ⟨ilocal, nlocal, iextdef, nextdef, iundef, nundef⟩
  | _ => none

end Commands

section Files

inductive Contents where
  | bytes (bytes : List UInt8)
  | zeros (size : ℕ)
  deriving DecidableEq

def Contents.size : Contents → ℕ
  | .bytes content => content.length
  | .zeros size => size

structure Symbol where
  name : Name
  /-- The section that defines the symbol, counted from one. -/
  sect : ℕ
  defined : Bool
  external : Bool
  privateExtern : Bool
  weakDefinition : Bool
  /-- For a symbol that is not defined, the binary logarithm of the alignment of a common one. -/
  commonAlign : ℕ
  value : ℕ
  deriving DecidableEq

inductive Target where
  | symbol (name : Name)
  | sectionAt (ordinal : ℕ)
  deriving DecidableEq

structure Relocation where
  offset : ℕ
  target : Target
  type : ℕ
  length : ℕ
  pcrel : Bool
  deriving DecidableEq

structure Section where
  sectname : Name
  segname : Name
  addr : ℕ
  align : ℕ
  flags : ℕ
  contents : Contents
  relocations : List Relocation
  deriving DecidableEq

structure MachOFile where
  sections : List Section
  locals : List Symbol
  external : List Symbol
  undefined : List Symbol
  /-- The ranges of the file that the headers name, as offsets and sizes. -/
  ranges : List (ℕ × ℕ)

def readSymbol (bytes strings : List UInt8) (offset : ℕ) : Option Symbol :=
  match readFields .lsb bytes offset [4, 1, 1, 2, 8] with
  | some [strx, nType, sect, desc, value] =>
    let defined := nType &&& 0x0E = nSect
    some
      { name := cString strings strx
        sect := sect
        defined := defined
        external := nType &&& nExt ≠ 0
        privateExtern := nType &&& nPext ≠ 0
        weakDefinition := defined ∧ desc &&& nWeakDef ≠ 0
        commonAlign := if defined then 0 else desc / 2 ^ 8 % 2 ^ 4
        value := value }
  | _ => none

/-- The info word of a relocation: from the low end a number of 24 bits, one bit, two, one, four. -/
def readReloc (symbols : List Symbol) (bytes : List UInt8) (offset : ℕ) : Option Relocation :=
  match readFields .lsb bytes offset [4, 4] with
  | some [address, info] =>
    let number := info % 2 ^ 24
    let target := if info / 2 ^ 27 % 2 = 1 then (symbols[number]?).map fun s => .symbol s.name
      else some (.sectionAt number)
    target.map fun target =>
      { offset := address
        target := target
        type := info / 2 ^ 28 % 2 ^ 4
        length := info / 2 ^ 25 % 2 ^ 2
        pcrel := info / 2 ^ 24 % 2 = 1 }
  | _ => none

/-- The types of sections that take no room in the file. -/
def isZerofill (flags : ℕ) : Bool :=
  flags % 2 ^ 8 = 0x1 || flags % 2 ^ 8 = 0xC || flags % 2 ^ 8 = 0x12

def readSection (bytes : List UInt8) (symbols : List Symbol) (header : SectionHeader) :
    Option Section := do
  let relocations ← readTable (readReloc symbols bytes) 8 header.reloff header.nreloc
  pure
    { sectname := header.sectname
      segname := header.segname
      addr := header.addr
      align := header.align
      flags := header.flags
      contents := if isZerofill header.flags then .zeros header.size
        else .bytes ((bytes.drop header.offset).take header.size)
      relocations := relocations }

def sectionRanges (headers : List SectionHeader) : List (ℕ × ℕ) :=
  (headers.filter (!isZerofill ·.flags)).map (fun header => (header.offset, header.size)) ++
    (headers.filter (·.nreloc ≠ 0)).map fun header => (header.reloff, header.nreloc * 8)

def readMachO (bytes : List UInt8) : Option MachOFile := do
  let (count, size) ← match readFields .lsb bytes 0 [4, 4, 4, 4, 4, 4, 4, 4] with
    | some [magic, _, _, _, ncmds, sizeofcmds, _, _] =>
      if magic = mhMagic64 then some (ncmds, sizeofcmds) else none
    | _ => none
  let commands ← readCommands bytes count 32
  let headers ← readSegment bytes (← findCommand commands lcSegment64)
  let symtab ← readSymtabCommand bytes (← findCommand commands lcSymtab)
  let dysymtab ← readDysymtabCommand bytes (← findCommand commands lcDysymtab)
  let strings := (bytes.drop symtab.stroff).take symtab.strsize
  let symbols ← readTable (readSymbol bytes strings) 16 symtab.symoff symtab.nsyms
  let sections ← headers.mapM (readSection bytes symbols)
  pure
    { sections := sections
      locals := (symbols.drop dysymtab.ilocalsym).take dysymtab.nlocalsym
      external := (symbols.drop dysymtab.iextdefsym).take dysymtab.nextdefsym
      undefined := (symbols.drop dysymtab.iundefsym).take dysymtab.nundefsym
      ranges := (0, 32 + size) :: (sectionRanges headers ++
        [(symtab.symoff, symtab.nsyms * 16), (symtab.stroff, symtab.strsize)]) }

end Files

section Views

/-- The sections that a file has: those with contents, with their numbers. -/
def MachOBuilder.kept (builder : MachOBuilder) : List (MachOSection × ℕ) :=
  builder.sections.zipIdx.filter fun item =>
    if item.1.zerofill then item.1.zerofillSize != 0 else !item.1.bytes.isEmpty

/-- The ordinal of a section of the builder and what the file says about it, where
`places` are the sections in the order of the file. -/
def whereIn (places : List (MachOSection × ℕ)) (sections : List Section) (id : ℤ) :
    Option (ℕ × Section) :=
  (places.findIdx? fun item => (item.2 : ℤ) = id).bind fun index =>
    (sections[index]?).map (index + 1, ·)

section

variable (places : List (MachOSection × ℕ)) (sections : List Section)

/-- The address of a symbol counts from the address of its section in the file. -/
def viewSymbol (symbol : MachOSymbol) : Option Symbol :=
  (whereIn places sections symbol.sectionId).map fun (ordinal, part) =>
    { name := symbol.name
      sect := ordinal
      defined := true
      external := symbol.external
      privateExtern := symbol.privateExtern
      weakDefinition := symbol.weakDefinition
      commonAlign := 0
      value := (part.addr + symbol.offsetInSection.toNat) % 2 ^ 64 }

def viewReloc (reloc : MachOReloc) : Option Relocation :=
  let target := if reloc.external then some (.symbol reloc.symbol)
    else (whereIn places sections reloc.sectionId).map fun (ordinal, _) => .sectionAt ordinal
  target.map fun target =>
    { offset := reloc.offset.toNat
      target := target
      type := reloc.type.toNat
      length := reloc.length.toNat
      pcrel := reloc.pcrel }

/-- The fields that get an address: of relocations against a section, those that
are not relative to the program counter and unsigned, and those marked. -/
def MachOReloc.AddsAddress (reloc : MachOReloc) : Prop :=
  reloc.external = false ∧
    (reloc.pcrel = false ∧ reloc.type = 0 ∨ reloc.sectionRelativeField = true)

/-- One field of the contents grows by an addend; no other byte changes. -/
structure FieldAdded (before after : List UInt8) (offset width : ℕ) (addend : ℤ) : Prop where
  length : after.length = before.length
  inside : offset + width ≤ before.length
  value : (littleEndian ((after.drop offset).take width) : ℤ) =
    (littleEndian ((before.drop offset).take width) + addend) % 256 ^ width
  others : ∀ i, i < offset ∨ offset + width ≤ i → after[i]? = before[i]?

/-- The contents of a section at an address, with the addresses that its
relocations add one after the other. -/
inductive AddressesAdded (addr : ℕ) : List MachOReloc → List UInt8 → List UInt8 → Prop
  | nil {bytes : List UInt8} : AddressesAdded addr [] bytes bytes
  | keep {reloc : MachOReloc} {relocs : List MachOReloc} {before after : List UInt8} :
      ¬ reloc.AddsAddress → AddressesAdded addr relocs before after →
      AddressesAdded addr (reloc :: relocs) before after
  | add {reloc : MachOReloc} {relocs : List MachOReloc} {before between after : List UInt8}
      {ordinal : ℕ} {target : Section} :
      reloc.AddsAddress → whereIn places sections reloc.sectionId = some (ordinal, target) →
      FieldAdded before between reloc.offset.toNat (2 ^ reloc.length.toNat)
        (if reloc.sectionRelativeField then (target.addr : ℤ) - addr else target.addr) →
      AddressesAdded addr relocs between after →
      AddressesAdded addr (reloc :: relocs) before after

/-- What a reader finds of a section.  Relocations may change their order, but
those of one offset keep it. -/
structure Reads (item : MachOSection × ℕ) (part : Section) : Prop where
  sectname : part.sectname = item.1.sectname
  segname : part.segname = item.1.segname
  align : part.align = item.1.alignLog2.toNat
  flags : part.flags = item.1.flags.toNat
  contents : if item.1.zerofill then part.contents = .zeros item.1.zerofillSize.toNat
    else ∃ contents, part.contents = .bytes contents ∧
      AddressesAdded places sections part.addr item.1.relocs item.1.bytes contents
  relocations : ∀ offset,
    (part.relocations.filter (fun reloc => reloc.offset = offset)).map some =
      (item.1.relocs.filter fun reloc => reloc.offset.toNat = offset).map
        (viewReloc places sections)

end

/-- Each section starts at the next multiple of its alignment; the headers hold the
addresses up to 64 bits. -/
def Consecutive : ℕ → List Section → Prop
  | _, [] => True
  | cursor, part :: rest => ∃ start, cursor ≤ start ∧ start < cursor + 2 ^ part.align ∧
      2 ^ part.align ∣ start ∧ part.addr = start % 2 ^ 64 ∧
      Consecutive (start + part.contents.size) rest

def viewCommon (common : MachOCommon) : Symbol :=
  { name := common.name
    sect := 0
    defined := false
    external := true
    privateExtern := false
    weakDefinition := false
    commonAlign := common.alignLog2.toNat
    value := common.size.toNat }

def viewUndefined (name : Name) : Symbol :=
  { name := name
    sect := 0
    defined := false
    external := true
    privateExtern := false
    weakDefinition := false
    commonAlign := 0
    value := 0 }

/-- The names that only relocations know, each once. -/
def MachOBuilder.undefinedNames (builder : MachOBuilder) : List Name :=
  (builder.usedNames.filter fun name => name ∉ builder.definedNames).eraseDups

/-- One range of the file ends before the other begins. -/
def RangeBefore (first second : ℕ × ℕ) : Prop := first.1 + first.2 ≤ second.1

/-- A file holds what the builder held: its sections with contents, in the order
`places`, and its symbols in their groups, at the addresses and ordinals that the
headers of the file give; and the ranges that headers name lie apart in it. -/
structure Holds (builder : MachOBuilder) (places : List (MachOSection × ℕ)) (size : ℕ)
    (file : MachOFile) : Prop where
  kept : places.Perm builder.kept
  sections : List.Forall₂ (Reads places file.sections) places file.sections
  addresses : Consecutive 0 file.sections
  locals : file.locals.map some =
    (builder.symbols.filter (!·.external)).map (viewSymbol places file.sections)
  external : (file.external.map some).Perm
    ((builder.symbols.filter (·.external)).map (viewSymbol places file.sections))
  undefined : file.undefined.Perm (builder.commons.map viewCommon ++
    builder.undefinedNames.map viewUndefined)
  ranges : file.ranges.Pairwise RangeBefore
  inside : ∀ range ∈ file.ranges, range.1 + range.2 ≤ size

end Views

section Conditions

structure MachOReloc.Fits (reloc : MachOReloc) : Prop where
  symbol : 0 ∉ reloc.symbol
  offset : reloc.offset.toNat < 2 ^ 32
  type : reloc.type.toNat < 2 ^ 4
  length : reloc.length.toNat < 2 ^ 2

structure MachOSection.Fits (part : MachOSection) : Prop where
  sectname : 0 ∉ part.sectname ∧ part.sectname.length ≤ 16
  segname : 0 ∉ part.segname ∧ part.segname.length ≤ 16
  align : part.alignLog2.toNat < 64
  /-- The type says whether the section takes room in the file. -/
  zerofill : part.zerofill = isZerofill part.flags.toNat
  relocs : ∀ reloc ∈ part.relocs, reloc.Fits

/-- What the builder holds can be said in the format. -/
structure MachOBuilder.WellFormed (builder : MachOBuilder) : Prop where
  few : builder.placements.length ≤ 255
  distinct : builder.definedNames.Nodup
  names : ∀ name ∈ builder.definedNames, 0 ∉ name
  sections : ∀ part ∈ builder.sections, part.Fits
  commons : ∀ common ∈ builder.commons, common.alignLog2.toNat < 2 ^ 4
  symbolCount : builder.symbols.length + builder.commons.length + builder.undefinedNames.length <
    2 ^ 24

end Conditions

end Aburi.Backend.MachO
