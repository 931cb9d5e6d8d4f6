import Aburi.Lib.ByteLayout
import Mathlib.Data.List.Sort

/-!
# The writer of Mach-O objects

Sections without contents are left out and those that are filled with zeros go
last.  Addresses and file offsets are computed before anything is written: the
file is then filled up to each offset in turn.  Addresses are numbers here; they
wrap at 64 bits where they are written, as sums and alignments of wrapped ones
do.  Strings are sequences of bytes.
-/

namespace Aburi.Backend.MachO

open Aburi.Lib

abbrev Name := List UInt8

/-- The text of an error. -/
abbrev Message := List UInt8

def text (string : String) : List UInt8 :=
  string.toList.map fun character => UInt8.ofNat character.toNat

structure MachOReloc where
  offset : UInt64 := 0
  symbol : Name := []
  sectionId : ℤ := -1
  type : UInt8 := 0
  length : UInt8 := 2
  pcrel : Bool := false
  external : Bool := true
  sectionRelativeField : Bool := false
  deriving DecidableEq

structure MachOSection where
  segname : Name := []
  sectname : Name := []
  flags : UInt32 := 0
  alignLog2 : UInt32 := 0
  zerofill : Bool := false
  bytes : List UInt8 := []
  zerofillSize : UInt64 := 0
  relocs : List MachOReloc := []
  deriving DecidableEq

def MachOSection.contentSize (part : MachOSection) : ℕ :=
  if part.zerofill then part.zerofillSize.toNat else part.bytes.length

def MachOSection.alignment (part : MachOSection) : ℕ := 1 <<< part.alignLog2.toNat

structure MachOSymbol where
  name : Name := []
  sectionId : ℤ := -1
  offsetInSection : UInt64 := 0
  external : Bool := false
  weakDefinition : Bool := false
  privateExtern : Bool := false
  deriving DecidableEq

structure MachOCommon where
  name : Name := []
  size : UInt64 := 0
  alignLog2 : UInt32 := 0
  deriving DecidableEq

structure MachOBuilder where
  cputype : UInt32 := 0x0100000C
  cpusubtype : UInt32 := 0
  minos : UInt32 := 0
  sections : List MachOSection := []
  symbols : List MachOSymbol := []
  commons : List MachOCommon := []
  deriving DecidableEq

section Constants

def mhMagic64 : ℕ := 0xFEEDFACF
def mhObject : ℕ := 0x1
def mhSubsectionsViaSymbols : ℕ := 0x2000
def lcSegment64 : ℕ := 0x19
def lcSymtab : ℕ := 0x2
def lcDysymtab : ℕ := 0xB
def lcBuildVersion : ℕ := 0x32
def platformMacos : ℕ := 1
def vmProtAll : ℕ := 7
def nUndf : ℕ := 0x0
def nSect : ℕ := 0xE
def nExt : ℕ := 0x1
def nPext : ℕ := 0x10
def nWeakDef : ℕ := 0x0080
def relocUnsigned : UInt8 := 0

end Constants

section Placing

/-- The next multiple of a power of two. -/
def alignUp (value align : ℕ) : ℕ := (value + align - 1) / align * align

/-- A section that is written, with its identifier and its address. -/
structure Placement where
  part : MachOSection
  id : ℕ
  addr : ℕ

namespace MachOBuilder

/-- The sections with contents, those of zeros last. -/
def order (builder : MachOBuilder) : List (MachOSection × ℕ) :=
  (builder.sections.zipIdx.filter fun item => !item.1.zerofill && 0 < item.1.contentSize) ++
    builder.sections.zipIdx.filter fun item => item.1.zerofill && 0 < item.1.contentSize

end MachOBuilder

def place : ℕ → List (MachOSection × ℕ) → List Placement
  | _, [] => []
  | cursor, (part, id) :: rest =>
    let addr := alignUp cursor part.alignment
    ⟨part, id, addr⟩ :: place (addr + part.contentSize) rest

def placedEnd (cursor : ℕ) (placements : List Placement) : ℕ :=
  placements.foldl (fun _ placement => placement.addr + placement.part.contentSize) cursor

namespace MachOBuilder

def placements (builder : MachOBuilder) : List Placement := place 0 builder.order

def vmsize (builder : MachOBuilder) : ℕ := placedEnd 0 builder.placements

end MachOBuilder

/-- The ordinal and the address of a section; ordinals are bytes and count from one. -/
def findFrom (id : ℤ) : ℕ → List Placement → Option (ℕ × ℕ)
  | _, [] => none
  | ordinal, placement :: rest =>
    if (placement.id : ℤ) = id then some (ordinal % 2 ^ 8, placement.addr)
    else findFrom id (ordinal + 1) rest

def find (placements : List Placement) (id : ℤ) : Option (ℕ × ℕ) := findFrom id 1 placements

end Placing

section Symbols

structure SymtabEntry where
  name : Name
  nType : ℕ := 0
  nSect : ℕ := 0
  nDesc : ℕ := 0
  nValue : ℕ := 0
  deriving DecidableEq

def symbolEntry (placements : List Placement) (symbol : MachOSymbol) :
    Except Message SymtabEntry :=
  match find placements symbol.sectionId with
  | none => .error (text "symbol '" ++ symbol.name ++ text "' references an empty section")
  | some (ordinal, addr) =>
    .ok
      { name := symbol.name
        nType := nSect ||| (if symbol.external then nExt else 0) |||
          (if symbol.privateExtern then nPext else 0)
        nSect := ordinal
        nDesc := if symbol.weakDefinition then nWeakDef else 0
        nValue := addr + symbol.offsetInSection.toNat }

def commonEntry (common : MachOCommon) : SymtabEntry :=
  { name := common.name
    nType := nUndf ||| nExt
    nValue := common.size.toNat
    nDesc := (common.alignLog2.toNat &&& 0xF) <<< 8 }

def undefinedEntry (name : Name) : SymtabEntry := { name := name, nType := nUndf ||| nExt }

/-- The names that are not defined, in the order of their first use. -/
def undefinedAfter : List Name → List Name → List Name
  | _, [] => []
  | known, name :: names =>
    if name ∈ known then undefinedAfter known names
    else name :: undefinedAfter (known ++ [name]) names

/-- The symbols in their groups. -/
structure Groups where
  locals : List SymtabEntry
  extdefs : List SymtabEntry
  undefs : List SymtabEntry

def sortByName (entries : List SymtabEntry) : List SymtabEntry :=
  entries.insertionSort fun first second => first.name ≤ second.name

namespace MachOBuilder

def definedNames (builder : MachOBuilder) : List Name :=
  builder.symbols.map (·.name) ++ builder.commons.map (·.name)

/-- The symbols of the relocations that have one. -/
def usedNames (builder : MachOBuilder) : List Name :=
  ((builder.sections.flatMap (·.relocs)).filter (·.external)).map (·.symbol)

def groups (builder : MachOBuilder) : Except Message Groups := do
  let entries ← builder.symbols.mapM (symbolEntry builder.placements)
  let marked := builder.symbols.zip entries
  pure
    { locals := (marked.filter (!·.1.external)).map Prod.snd
      extdefs := sortByName ((marked.filter (·.1.external)).map Prod.snd)
      undefs := sortByName (builder.commons.map commonEntry ++
        (undefinedAfter builder.definedNames builder.usedNames).map undefinedEntry) }

end MachOBuilder

def Groups.symtab (groups : Groups) : List SymtabEntry :=
  groups.locals ++ groups.extdefs ++ groups.undefs

/-- The index of the last entry with the name. -/
def symbolIndex (symtab : List SymtabEntry) (name : Name) : Option ℕ :=
  (symtab.zipIdx.reverse.find? (·.1.name = name)).map (·.2 % 2 ^ 32)

/-- The strings of the symbols, each once, with their offsets. -/
structure Strings where
  bytes : List UInt8 := [0]
  offsets : List (Name × ℕ) := []

def Strings.add (strings : Strings) (name : Name) : Strings :=
  match strings.offsets.lookup name with
  | some _ => strings
  | none =>
    { bytes := strings.bytes ++ (name ++ [0])
      offsets := (name, strings.bytes.length % 2 ^ 32) :: strings.offsets }

def stringsOf (symtab : List SymtabEntry) : Strings :=
  symtab.foldl (fun strings entry => strings.add entry.name) {}

def Strings.offsetOf (strings : Strings) (name : Name) : ℕ :=
  (strings.offsets.lookup name).getD 0

end Symbols

section Contents

/-- The relocation adds an address to the field it is about. -/
def MachOReloc.addsAddress (reloc : MachOReloc) : Bool :=
  !reloc.external && ((!reloc.pcrel && reloc.type == relocUnsigned) || reloc.sectionRelativeField)

/-- The field at the offset, with a number added to it. -/
def addToField (contents : List UInt8) (offset width : ℕ) (addend : ℤ) : List UInt8 :=
  let value := (littleEndian ((contents.drop offset).take width) : ℤ) + addend
  contents.take offset ++ (scalar .lsb (value % 2 ^ 64).toNat width ++
    contents.drop (offset + width))

def applyReloc (placements : List Placement) (addr : ℕ) (contents : List UInt8)
    (reloc : MachOReloc) : Except Message (List UInt8) :=
  if !reloc.addsAddress then .ok contents
  else
    let width := 1 <<< reloc.length.toNat
    match find placements reloc.sectionId with
    | none => .error (text "local relocation references an empty section")
    | some (_, target) =>
      if 8 < width ∨ contents.length < reloc.offset.toNat + width then
        .error (text "local relocation field is outside its section")
      else
        .ok (addToField contents reloc.offset.toNat width
          (if reloc.sectionRelativeField then (target : ℤ) - addr else target))

/-- The bytes of a section with the addresses in its fields. -/
def relocated (placements : List Placement) (placement : Placement) :
    Except Message (List UInt8) :=
  placement.part.relocs.foldlM (applyReloc placements placement.addr) placement.part.bytes

/-- Zeros up to an offset, if the file does not reach it. -/
def fillTo (offset : ℕ) (bytes : List UInt8) : List UInt8 :=
  bytes ++ List.replicate (offset - bytes.length) 0

def writeContents (placements : List Placement) (dataStart : ℕ) :
    List UInt8 → List Placement → Except Message (List UInt8)
  | file, [] => .ok file
  | file, placement :: rest =>
    if placement.part.zerofill then writeContents placements dataStart file rest
    else do
      let contents ← relocated placements placement
      writeContents placements dataStart (fillTo (dataStart + placement.addr) file ++ contents) rest

/-- Where the contents of the file end. -/
def fileCursor (dataStart : ℕ) (placements : List Placement) : ℕ :=
  placements.foldl (fun cursor placement =>
    if placement.part.zerofill then cursor
    else dataStart + placement.addr + placement.part.bytes.length) dataStart

end Contents

section Relocations

/-- Relocations by descending offsets; those of one offset keep their order. -/
def orderedRelocs (relocs : List MachOReloc) : List MachOReloc :=
  relocs.insertionSort fun first second => second.offset ≤ first.offset

def bit (flag : Bool) : ℕ := if flag then 1 else 0

def relocInfo (placements : List Placement) (symtab : List SymtabEntry) (reloc : MachOReloc) :
    Except Message ℕ :=
  let rest := (bit reloc.pcrel <<< 24 ||| (reloc.length.toNat &&& 0x3) <<< 25) |||
    (reloc.type.toNat &&& 0xF) <<< 28
  if reloc.external then
    match symbolIndex symtab reloc.symbol with
    | none => .error (text "relocation against unknown symbol '" ++ reloc.symbol ++ text "'")
    | some index => .ok ((index &&& 0x00FFFFFF) ||| 1 <<< 27 ||| rest)
  else
    match find placements reloc.sectionId with
    | none => .error (text "local relocation references an empty section")
    | some (ordinal, _) => .ok ((ordinal &&& 0x00FFFFFF) ||| rest)

def writeReloc (placements : List Placement) (symtab : List SymtabEntry) (reloc : MachOReloc) :
    Except Message (List UInt8) := do
  let info ← relocInfo placements symtab reloc
  pure (writeFields .lsb [(4, reloc.offset.toNat), (4, info)])

def writeRelocs (placements : List Placement) (symtab : List SymtabEntry) :
    List MachOReloc → Except Message (List UInt8)
  | [] => .ok []
  | reloc :: rest => do
      let first ← writeReloc placements symtab reloc
      let others ← writeRelocs placements symtab rest
      pure (first ++ others)

/-- The relocations of all sections. -/
def writeAllRelocs (placements : List Placement) (symtab : List SymtabEntry) :
    List Placement → Except Message (List UInt8)
  | [] => .ok []
  | placement :: rest => do
      let first ← writeRelocs placements symtab (orderedRelocs placement.part.relocs)
      let others ← writeAllRelocs placements symtab rest
      pure (first ++ others)

end Relocations

section Commands

/-- A name in sixteen bytes. -/
def name16 (name : Name) : List UInt8 :=
  name.take 16 ++ List.replicate (16 - name.length) 0

/-- The offsets that the commands name. -/
structure Offsets where
  dataStart : ℕ
  fileCursor : ℕ
  relocStart : ℕ
  symtab : ℕ
  strtab : ℕ

namespace MachOBuilder

def segmentCmdSize (builder : MachOBuilder) : ℕ := 72 + builder.placements.length * 80

def sizeofcmds (builder : MachOBuilder) : ℕ := builder.segmentCmdSize + 24 + 24 + 80

def headerEnd (builder : MachOBuilder) : ℕ := 32 + builder.sizeofcmds

def maxAlign (builder : MachOBuilder) : ℕ :=
  builder.placements.foldl (fun align placement =>
    if placement.part.zerofill then align else max align placement.part.alignment) 1

def dataStart (builder : MachOBuilder) : ℕ := alignUp builder.headerEnd builder.maxAlign

def relocCount (builder : MachOBuilder) : ℕ :=
  (builder.placements.map (·.part.relocs.length)).sum

def offsets (builder : MachOBuilder) (symbolCount : ℕ) : Offsets :=
  let cursor := fileCursor builder.dataStart builder.placements
  let relocStart := alignUp cursor 8
  let symtab := relocStart + builder.relocCount * 8
  ⟨builder.dataStart, cursor, relocStart, symtab, symtab + symbolCount * 16⟩

end MachOBuilder

/-- The header of a section whose relocations start at the offset. -/
def sectionHeader (dataStart relocOffset : ℕ) (placement : Placement) : List UInt8 :=
  let part := placement.part
  name16 part.sectname ++ (name16 part.segname ++ writeFields .lsb
    [(8, placement.addr), (8, part.contentSize),
      (4, if part.zerofill then 0 else dataStart + placement.addr), (4, part.alignLog2.toNat),
      (4, if part.relocs = [] then 0 else relocOffset), (4, part.relocs.length),
      (4, part.flags.toNat), (4, 0), (4, 0), (4, 0)])

def sectionHeaders (dataStart : ℕ) : ℕ → List Placement → List UInt8
  | _, [] => []
  | relocOffset, placement :: rest =>
    sectionHeader dataStart relocOffset placement ++
      sectionHeaders dataStart (relocOffset + placement.part.relocs.length * 8) rest

namespace MachOBuilder

/-- The size of the segment in the file. -/
def fileSize (builder : MachOBuilder) : ℕ :=
  if builder.placements.all fun placement =>
      placement.part.zerofill || placement.part.bytes.length == 0
  then 0
  else fileCursor builder.dataStart builder.placements - builder.dataStart

def header (builder : MachOBuilder) : List UInt8 :=
  writeFields .lsb
    [(4, mhMagic64), (4, builder.cputype.toNat), (4, builder.cpusubtype.toNat), (4, mhObject),
      (4, 4), (4, builder.sizeofcmds), (4, mhSubsectionsViaSymbols), (4, 0)]

def segmentCommand (builder : MachOBuilder) (offsets : Offsets) : List UInt8 :=
  writeFields .lsb [(4, lcSegment64), (4, builder.segmentCmdSize)] ++ (name16 [] ++
    (writeFields .lsb [(8, 0), (8, builder.vmsize), (8, offsets.dataStart), (8, builder.fileSize),
      (4, vmProtAll), (4, vmProtAll), (4, builder.placements.length), (4, 0)] ++
    sectionHeaders offsets.dataStart offsets.relocStart builder.placements))

def buildVersionCommand (builder : MachOBuilder) : List UInt8 :=
  writeFields .lsb [(4, lcBuildVersion), (4, 24), (4, platformMacos), (4, builder.minos.toNat),
    (4, 0), (4, 0)]

def symtabCommand (offsets : Offsets) (symbolCount stringSize : ℕ) : List UInt8 :=
  writeFields .lsb [(4, lcSymtab), (4, 24), (4, offsets.symtab), (4, symbolCount),
    (4, offsets.strtab), (4, stringSize)]

def dysymtabCommand (groups : Groups) : List UInt8 :=
  writeFields .lsb ([(4, lcDysymtab), (4, 80), (4, 0), (4, groups.locals.length),
    (4, groups.locals.length), (4, groups.extdefs.length),
    (4, groups.locals.length + groups.extdefs.length), (4, groups.undefs.length)] ++
    List.replicate 12 (4, 0))

/-- The file up to its contents. -/
def front (builder : MachOBuilder) (groups : Groups) (stringSize : ℕ) : List UInt8 :=
  let offsets := builder.offsets groups.symtab.length
  builder.header ++ (builder.segmentCommand offsets ++ (builder.buildVersionCommand ++
    (symtabCommand offsets groups.symtab.length stringSize ++ dysymtabCommand groups)))

end MachOBuilder

def writeSymbol (strings : Strings) (entry : SymtabEntry) : List UInt8 :=
  writeFields .lsb [(4, strings.offsetOf entry.name), (1, entry.nType), (1, entry.nSect),
    (2, entry.nDesc), (8, entry.nValue)]

namespace MachOBuilder

def write (builder : MachOBuilder) : Except Message (List UInt8) := do
  let groups ← builder.groups
  let symtab := groups.symtab
  let strings := stringsOf symtab
  let strtab := padTo 8 strings.bytes
  let offsets := builder.offsets symtab.length
  let file ← writeContents builder.placements offsets.dataStart
    (builder.front groups strtab.length) builder.placements
  let relocs ← writeAllRelocs builder.placements symtab builder.placements
  pure (fillTo offsets.relocStart file ++ (relocs ++
    (symtab.flatMap (writeSymbol strings) ++ strtab)))

end MachOBuilder

end Commands

end Aburi.Backend.MachO
