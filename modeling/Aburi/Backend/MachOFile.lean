import Aburi.Backend.MachOSymbols

/-!
# Reading a written Mach-O object

A reader that knows only the format finds in a written file the headers, the
contents and the symbols where the writer placed them.  The ranges of the file
that its headers name follow each other.
-/

namespace Aburi.Backend.MachO

open Aburi.Lib List Nat Function

variable {item : Placement × ℕ}

section Headers

variable {bytes : List UInt8} {offset : ℕ}

theorem length_name16 {name : Name} (short : name.length ≤ 16) : (name16 name).length = 16 := by
  rw [name16, length_append, length_take, length_replicate]
  omega

theorem readName16_of_hasAt {name : Name} (noZero : 0 ∉ name) (short : name.length ≤ 16)
    (has : HasAt bytes offset (name16 name)) : readName16 bytes offset = name := by
  have slice := has.slice
  rw [length_name16 short] at slice
  rw [readName16, slice, name16, take_of_length_le short, takeWhile_append_of_pos]
  · rw [takeWhile_replicate]
    simp
  · intro byte mem
    simp only [bne_iff_ne, ne_eq]
    rintro rfl
    exact noZero mem

/-- What a reader finds in the header of a section. -/
def headerOf (dataStart : ℕ) (item : Placement × ℕ) : SectionHeader :=
  { sectname := item.1.part.sectname
    segname := item.1.part.segname
    addr := item.1.addr % 2 ^ 64
    size := item.1.part.contentSize
    offset := if item.1.part.zerofill then 0 else dataStart + item.1.addr
    align := item.1.part.alignLog2.toNat
    reloff := if item.1.part.relocs = [] then 0 else item.2
    nreloc := item.1.part.relocs.length
    flags := item.1.part.flags.toNat }

/-- The offsets and counts in the header of the section fit their fields. -/
structure HeaderFits (dataStart : ℕ) (item : Placement × ℕ) : Prop where
  offset : item.1.part.zerofill = false →
    dataStart + item.1.addr + item.1.part.bytes.length < 2 ^ 32
  relocs : item.2 + item.1.part.relocs.length * 8 < 2 ^ 32

theorem length_sectionHeader {dataStart relocOffset : ℕ} {placement : Placement}
    (fits : placement.part.Fits) :
    (sectionHeader dataStart relocOffset placement).length = 80 := by
  rw [sectionHeader, length_append, length_append, length_name16 fits.sectname.2,
    length_name16 fits.segname.2, length_writeFields]
  rfl

theorem contentSize_lt {dataStart : ℕ} (fits : HeaderFits dataStart item) :
    item.1.part.contentSize < 2 ^ 64 := by
  rw [MachOSection.contentSize]
  split
  · exact item.1.part.zerofillSize.toNat_lt
  · rename_i filled
    have := fits.offset (by simpa using filled)
    omega

theorem readSectionHeader_of_hasAt {dataStart : ℕ} (fits : item.1.part.Fits)
    (headerFits : HeaderFits dataStart item)
    (has : HasAt bytes offset (sectionHeader dataStart item.2 item.1)) :
    readSectionHeader bytes offset = some (headerOf dataStart item) := by
  rw [sectionHeader] at has
  have sectname := readName16_of_hasAt fits.sectname.1 fits.sectname.2 has.head
  have rest := has.tail
  rw [length_name16 fits.sectname.2] at rest
  have segname := readName16_of_hasAt fits.segname.1 fits.segname.2 rest.head
  have rest := rest.tail
  rw [length_name16 fits.segname.2] at rest
  have fields := readFields_of_hasAt rest
  simp only [map_cons, map_nil] at fields
  have relocsFit := headerFits.relocs
  have sizeFits : item.1.part.contentSize % 256 ^ 8 = item.1.part.contentSize :=
    mod_eq_of_lt (contentSize_lt headerFits)
  have offsetFits : (if item.1.part.zerofill = true then 0 else dataStart + item.1.addr) %
      256 ^ 4 = if item.1.part.zerofill = true then 0 else dataStart + item.1.addr := by
    split
    · rfl
    · rename_i filled
      have := headerFits.offset (by simpa using filled)
      exact mod_eq_of_lt (by omega)
  have alignFits : item.1.part.alignLog2.toNat % 256 ^ 4 = item.1.part.alignLog2.toNat :=
    mod_eq_of_lt item.1.part.alignLog2.toNat_lt
  have reloffFits : (if item.1.part.relocs = [] then 0 else item.2) % 256 ^ 4 =
      if item.1.part.relocs = [] then 0 else item.2 := by
    split
    · rfl
    · exact mod_eq_of_lt (by omega)
  have countFits : item.1.part.relocs.length % 256 ^ 4 = item.1.part.relocs.length :=
    mod_eq_of_lt (by omega)
  have flagsFit : item.1.part.flags.toNat % 256 ^ 4 = item.1.part.flags.toNat :=
    mod_eq_of_lt item.1.part.flags.toNat_lt
  simp only [readSectionHeader, show offset + 32 = offset + 16 + 16 by rfl, fields, sectname,
    segname, sizeFits, offsetFits, alignFits, reloffFits, countFits, flagsFit, headerOf]
  rfl

end Headers

section Commands

variable {bytes : List UInt8} {builder : MachOBuilder} {groups : Groups} {stringSize : ℕ}

theorem length_segmentCommand (wellFormed : builder.WellFormed) (offsets : Offsets) :
    (builder.segmentCommand offsets).length = builder.segmentCmdSize := by
  have headers : (sectionHeaders offsets.dataStart offsets.relocStart builder.placements).length =
      builder.placements.length * 80 := by
    rw [sectionHeaders_eq, length_flatMap_const fun item mem => ?_]
    · rw [← withRelocOffsets_map offsets.relocStart builder.placements, length_map,
        withRelocOffsets_map]
    · have isPlaced : item.1 ∈ builder.placements := by
        rw [← withRelocOffsets_map offsets.relocStart builder.placements]
        exact mem_map_of_mem mem
      exact length_sectionHeader (wellFormed.sections _ (mem_sections_of_placement isPlaced).1)
  rw [MachOBuilder.segmentCommand, length_append, length_append, length_append,
    headers, length_name16 (by simp), length_writeFields, length_writeFields,
    MachOBuilder.segmentCmdSize]
  simp only [map_cons, map_nil, sum_cons, sum_nil]
  omega

theorem length_front (wellFormed : builder.WellFormed) :
    (builder.front groups stringSize).length = builder.headerEnd := by
  simp only [MachOBuilder.front, length_append, length_segmentCommand wellFormed]
  rw [MachOBuilder.header, MachOBuilder.buildVersionCommand, MachOBuilder.symtabCommand,
    MachOBuilder.dysymtabCommand, MachOBuilder.headerEnd, MachOBuilder.sizeofcmds]
  have zeros : (replicate 12 4).sum = 48 := by decide
  simp only [length_writeFields, map_cons, map_nil, map_append, sum_cons,
    sum_nil, List.sum_append, map_replicate, zeros]
  omega

theorem readCommand {offset command size : ℕ} {rest : List UInt8} (commandFits : command < 2 ^ 32)
    (sizeFits : size < 2 ^ 32)
    (has : HasAt bytes offset (writeFields .lsb [(4, command), (4, size)] ++ rest)) :
    readFields .lsb bytes offset [4, 4] = some [command, size] := by
  have fields := readFields_of_hasAt has.head
  simp only [map_cons, map_nil, mod_eq_of_lt (show command < 256 ^ 4 from commandFits),
    mod_eq_of_lt (show size < 256 ^ 4 from sizeFits)] at fields
  exact fields

/-- Where the commands are. -/
structure CommandsAt (builder : MachOBuilder) (groups : Groups) (stringSize : ℕ)
    (bytes : List UInt8) : Prop where
  segment : HasAt bytes 32 (builder.segmentCommand (builder.offsets groups.symtab.length))
  buildVersion : HasAt bytes (32 + builder.segmentCmdSize) builder.buildVersionCommand
  symtab : HasAt bytes (32 + builder.segmentCmdSize + 24)
    (MachOBuilder.symtabCommand (builder.offsets groups.symtab.length) groups.symtab.length
      stringSize)
  dysymtab : HasAt bytes (32 + builder.segmentCmdSize + 24 + 24)
    (MachOBuilder.dysymtabCommand groups)
  header : HasAt bytes 0 builder.header

theorem commandsAt (wellFormed : builder.WellFormed)
    (has : HasAt bytes 0 (builder.front groups stringSize)) :
    CommandsAt builder groups stringSize bytes := by
  rw [MachOBuilder.front] at has
  have header := has.head
  have headerSize : builder.header.length = 32 := by
    rw [MachOBuilder.header, length_writeFields]
    rfl
  have rest := has.tail
  rw [headerSize, Nat.zero_add] at rest
  have segment := rest.head
  have rest := rest.tail
  rw [length_segmentCommand wellFormed] at rest
  have buildVersion := rest.head
  have rest := rest.tail
  rw [show builder.buildVersionCommand.length = 24 by
    rw [MachOBuilder.buildVersionCommand, length_writeFields]; rfl] at rest
  have symtab := rest.head
  have dysymtab := rest.tail
  rw [MachOBuilder.symtabCommand, length_writeFields] at dysymtab
  exact ⟨segment, buildVersion, symtab, dysymtab, header⟩

theorem CommandsAt.readCommands (wellFormed : builder.WellFormed)
    (commands : CommandsAt builder groups stringSize bytes) :
    readCommands bytes 4 32 = some [(lcSegment64, 32),
      (lcBuildVersion, 32 + builder.segmentCmdSize), (lcSymtab, 32 + builder.segmentCmdSize + 24),
      (lcDysymtab, 32 + builder.segmentCmdSize + 24 + 24)] := by
  have sizeFits : builder.segmentCmdSize < 2 ^ 32 := by
    have := wellFormed.few
    rw [MachOBuilder.segmentCmdSize]
    omega
  have segment := readCommand (by decide) sizeFits commands.segment
  have buildVersion := readCommand (by decide) (by decide)
    (show HasAt bytes _ (writeFields .lsb [(4, lcBuildVersion), (4, 24)] ++ _) from
      commands.buildVersion)
  have symtab := readCommand (by decide) (by decide)
    (show HasAt bytes _ (writeFields .lsb [(4, lcSymtab), (4, 24)] ++ _) from commands.symtab)
  have dysymtab := readCommand (by decide) (by decide)
    (show HasAt bytes _ (writeFields .lsb [(4, lcDysymtab), (4, 80)] ++ _) from commands.dysymtab)
  simp only [MachO.readCommands, segment, buildVersion, symtab, dysymtab, Option.map_some]

end Commands

section Blocks

variable {bytes : List UInt8} {builder : MachOBuilder} {groups : Groups}

theorem maxAlign_pos (builder : MachOBuilder) : 0 < builder.maxAlign := by
  have grows : ∀ (placements : List Placement) (align : ℕ), 0 < align →
      0 < placements.foldl (fun align placement =>
        if placement.part.zerofill then align else max align placement.part.alignment) align := by
    intro placements
    induction placements with
    | nil => exact fun _ positive => positive
    | cons placement placements ih =>
      intro align positive
      apply ih
      simp only
      split
      · exact positive
      · exact lt_of_lt_of_le positive (le_max_left _ _)
  exact grows _ 1 Nat.one_pos

/-- Where the parts of the file are. -/
structure InFile (builder : MachOBuilder) (groups : Groups) (bytes : List UInt8) : Prop where
  commands : CommandsAt builder groups (padTo 8 (stringsOf groups.symtab).bytes).length bytes
  contents : ∀ placement ∈ builder.placements, placement.part.zerofill = false →
    ∃ contents, relocated builder.placements placement = .ok contents ∧
      HasAt bytes (builder.dataStart + placement.addr) contents
  relocs : ∀ item ∈ withRelocOffsets (builder.offsets groups.symtab.length).relocStart
      builder.placements,
    HasAt bytes item.2 ((orderedRelocs item.1.part.relocs).flatMap
      (relocBytes builder.placements groups.symtab)) ∧
    ∀ reloc ∈ item.1.part.relocs, ∃ info,
      relocInfo builder.placements groups.symtab reloc = .ok info ∧
      relocBytes builder.placements groups.symtab reloc =
        writeFields .lsb [(4, reloc.offset.toNat), (4, info)]
  symtab : HasAt bytes (builder.offsets groups.symtab.length).symtab
    (groups.symtab.flatMap (writeSymbol (stringsOf groups.symtab)))
  strtab : HasAt bytes (builder.offsets groups.symtab.length).strtab
    (padTo 8 (stringsOf groups.symtab).bytes)

theorem headerEnd_le_dataStart (builder : MachOBuilder) : builder.headerEnd ≤ builder.dataStart :=
  le_alignUp _ (maxAlign_pos builder)

theorem inFile_write (wellFormed : builder.WellFormed) (written : builder.write = .ok bytes) :
    ∃ groups, builder.groups = .ok groups ∧ InFile builder groups bytes := by
  rw [MachOBuilder.write] at written
  cases made : builder.groups with
  | error message => simp [made, bind, Except.bind] at written
  | ok groups =>
    simp only [made, bind, Except.bind] at written
    cases filled : writeContents builder.placements
        (builder.offsets groups.symtab.length).dataStart
        (builder.front groups (padTo 8 (stringsOf groups.symtab).bytes).length)
        builder.placements with
    | error message => simp [filled] at written
    | ok file =>
      cases related : writeAllRelocs builder.placements groups.symtab builder.placements with
      | error message => simp [filled, related] at written
      | ok relocs =>
        simp only [filled, related, pure, Except.pure, Except.ok.injEq] at written
        have frontSize := @length_front builder groups
          (padTo 8 (stringsOf groups.symtab).bytes).length wellFormed
        have start := headerEnd_le_dataStart builder
        have isWritten := @writeContents_written _ _ builder.dataStart _ _ _
          (place_ordered 0 builder.order)
          (fun placement _ _ => (frontSize.le.trans start).trans (Nat.le_add_right _ _))
          (frontSize.le.trans start) filled
        have ends : file.length ≤ (builder.offsets groups.symtab.length).relocStart :=
          isWritten.length_le.trans (le_alignUp _ (by decide))
        have size := length_fillTo ends
        have whole := hasAt_end
          (fillTo (builder.offsets groups.symtab.length).relocStart file)
          (relocs ++ (groups.symtab.flatMap (writeSymbol (stringsOf groups.symtab)) ++
            padTo 8 (stringsOf groups.symtab).bytes))
        rw [written, size] at whole
        obtain ⟨relocSize, allRelocs⟩ := writeAllRelocs_hasAt related whole.head
        have rest := whole.tail
        rw [relocSize] at rest
        have strtab := rest.tail
        rw [length_flatMap_const fun entry _ => length_writeSymbol _ entry] at strtab
        have grows : file <+: bytes := by
          rw [← written]
          exact (prefix_append _ _).trans (prefix_append _ _)
        have front : HasAt bytes 0 (builder.front groups
            (padTo 8 (stringsOf groups.symtab).bytes).length) := by
          obtain ⟨more, isMore⟩ := isWritten.grows.trans grows
          exact ⟨[], more, isMore.symm, rfl⟩
        refine ⟨groups, rfl, commandsAt wellFormed front, ?_, allRelocs, rest.head, strtab⟩
        intro placement isPlaced hasBytes
        obtain ⟨contents, made, has⟩ := isWritten.block placement isPlaced hasBytes
        exact ⟨contents, made, has.grow grows⟩

end Blocks

/-- What a reader finds of a section that was placed, in terms of the placements. -/
structure Placed (builder : MachOBuilder) (placement : Placement) (part : Section) : Prop where
  sectname : part.sectname = placement.part.sectname
  segname : part.segname = placement.part.segname
  addr : part.addr = placement.addr % 2 ^ 64
  align : part.align = placement.part.alignLog2.toNat
  flags : part.flags = placement.part.flags.toNat
  contents : if placement.part.zerofill then
      part.contents = .zeros placement.part.zerofillSize.toNat
    else ∃ contents, relocated builder.placements placement = .ok contents ∧
      part.contents = .bytes contents
  relocations : ∀ offset, part.relocations.filter (fun reloc => reloc.offset = offset) =
    (placement.part.relocs.filter fun reloc => reloc.offset.toNat = offset).map
      (placedReloc builder)
  targets : ∀ reloc ∈ placement.part.relocs, reloc.external = false →
    ∃ place, find builder.placements reloc.sectionId = some place

section Reading

variable {bytes : List UInt8} {builder : MachOBuilder} {groups : Groups}

theorem placement_of_item {offset : ℕ}
    (isItem : item ∈ withRelocOffsets offset builder.placements) :
    item.1 ∈ builder.placements := by
  rw [← withRelocOffsets_map offset builder.placements]
  exact mem_map_of_mem isItem

theorem fits_of_placement (wellFormed : builder.WellFormed) {placement : Placement}
    (isPlaced : placement ∈ builder.placements) : placement.part.Fits :=
  wellFormed.sections _ (mem_sections_of_placement isPlaced).1

theorem InFile.relocs_le (inFile : InFile builder groups bytes)
    (isItem : item ∈ withRelocOffsets (builder.offsets groups.symtab.length).relocStart
      builder.placements) :
    item.2 + item.1.part.relocs.length * 8 ≤ bytes.length := by
  obtain ⟨has, infos⟩ := inFile.relocs item isItem
  have ends := has.le
  rw [length_flatMap_const fun reloc mem => ?_, length_orderedRelocs] at ends
  · exact ends
  · obtain ⟨info, -, isBytes⟩ := infos reloc ((mem_insertionSort _).mp mem)
    rw [isBytes, length_writeFields]
    rfl

theorem InFile.headerFits (inFile : InFile builder groups bytes) (small : bytes.length < 2 ^ 32)
    (isItem : item ∈ withRelocOffsets (builder.offsets groups.symtab.length).relocStart
      builder.placements) : HeaderFits builder.dataStart item := by
  constructor
  · intro filled
    obtain ⟨contents, made, has⟩ := inFile.contents item.1 (placement_of_item isItem) filled
    have ends := has.le
    rw [length_relocated made] at ends
    omega
  · exact lt_of_le_of_lt (inFile.relocs_le isItem) small

/-- The headers that the reader finds. -/
def headersOf (builder : MachOBuilder) (groups : Groups) : List SectionHeader :=
  (withRelocOffsets (builder.offsets groups.symtab.length).relocStart builder.placements).map
    (headerOf builder.dataStart)

theorem length_withRelocOffsets (offset : ℕ) (placements : List Placement) :
    (withRelocOffsets offset placements).length = placements.length := by
  have := congrArg length (withRelocOffsets_map offset placements)
  simpa using this

theorem InFile.readSegment (wellFormed : builder.WellFormed)
    (inFile : InFile builder groups bytes) (small : bytes.length < 2 ^ 32) :
    readSegment bytes 32 = some (headersOf builder groups) := by
  have has := inFile.commands.segment
  rw [MachOBuilder.segmentCommand] at has
  have rest := has.tail.tail
  rw [length_writeFields, length_name16 (by simp)] at rest
  have fields := readFields_of_hasAt rest.head
  have sections := rest.tail
  rw [length_writeFields, sectionHeaders_eq] at sections
  have read := readTable_of_hasAt (headerOf builder.dataStart)
    (fun item mem => length_sectionHeader (fits_of_placement wellFormed (placement_of_item mem)))
    sections (fun item mem _ hasItem => readSectionHeader_of_hasAt
      (fits_of_placement wellFormed (placement_of_item mem)) (inFile.headerFits small mem) hasItem)
  have few := wellFormed.few
  have countFits : builder.placements.length % 256 ^ 4 = builder.placements.length :=
    mod_eq_of_lt (by omega)
  rw [length_withRelocOffsets] at read
  simp only [map_cons, map_nil, countFits] at fields
  simp only [MachO.readSegment]
  rw [show 32 + 24 = 32 + [4, 4].sum + 16 by rfl, fields]
  exact read

section

variable (inFile : InFile builder groups bytes)
include inFile

theorem InFile.strtab_le :
    (builder.offsets groups.symtab.length).strtab +
      (padTo 8 (stringsOf groups.symtab).bytes).length ≤ bytes.length :=
  inFile.strtab.le

theorem InFile.readSymtabCommand (small : bytes.length < 2 ^ 32)
    (few : groups.symtab.length < 2 ^ 24) :
    readSymtabCommand bytes (32 + builder.segmentCmdSize + 24) =
      some ⟨(builder.offsets groups.symtab.length).symtab, groups.symtab.length,
        (builder.offsets groups.symtab.length).strtab,
        (padTo 8 (stringsOf groups.symtab).bytes).length⟩ := by
  have has := inFile.commands.symtab
  have ends := inFile.strtab_le
  have symtabEnds := inFile.symtab.le
  have rest : HasAt bytes (32 + builder.segmentCmdSize + 24 + 8) (writeFields .lsb
      [(4, (builder.offsets groups.symtab.length).symtab), (4, groups.symtab.length),
        (4, (builder.offsets groups.symtab.length).strtab),
        (4, (padTo 8 (stringsOf groups.symtab).bytes).length)]) :=
    @HasAt.tail bytes _ _ (writeFields .lsb [(4, lcSymtab), (4, 24)]) has
  have fields := readFields_of_hasAt rest
  simp only [map_cons, map_nil] at fields
  simp only [MachO.readSymtabCommand, fields,
    mod_eq_of_lt (show (builder.offsets groups.symtab.length).symtab < 256 ^ 4 by omega),
    mod_eq_of_lt (show groups.symtab.length < 256 ^ 4 by omega),
    mod_eq_of_lt (show (builder.offsets groups.symtab.length).strtab < 256 ^ 4 by omega),
    mod_eq_of_lt (show (padTo 8 (stringsOf groups.symtab).bytes).length < 256 ^ 4 by omega)]

theorem InFile.readDysymtabCommand (few : groups.symtab.length < 2 ^ 24) :
    readDysymtabCommand bytes (32 + builder.segmentCmdSize + 24 + 24) =
      some ⟨0, groups.locals.length, groups.locals.length, groups.extdefs.length,
        groups.locals.length + groups.extdefs.length, groups.undefs.length⟩ := by
  have has := inFile.commands.dysymtab
  have rest : HasAt bytes (32 + builder.segmentCmdSize + 24 + 24 + 8) (writeFields .lsb
      [(4, 0), (4, groups.locals.length), (4, groups.locals.length), (4, groups.extdefs.length),
        (4, groups.locals.length + groups.extdefs.length), (4, groups.undefs.length)] ++
        writeFields .lsb (replicate 12 (4, 0))) :=
    @HasAt.tail bytes _ _ (writeFields .lsb [(4, lcDysymtab), (4, 80)]) has
  have fields := readFields_of_hasAt rest.head
  rw [Groups.symtab, length_append, length_append] at few
  simp only [map_cons, map_nil] at fields
  simp only [MachO.readDysymtabCommand, fields, zero_mod,
    mod_eq_of_lt (show groups.locals.length < 256 ^ 4 by omega),
    mod_eq_of_lt (show groups.extdefs.length < 256 ^ 4 by omega),
    mod_eq_of_lt (show groups.locals.length + groups.extdefs.length < 256 ^ 4 by omega),
    mod_eq_of_lt (show groups.undefs.length < 256 ^ 4 by omega)]

theorem InFile.readSymbols (small : bytes.length < 2 ^ 32)
    (fits : ∀ entry ∈ groups.symtab, entry.Fits ∧ 0 ∉ entry.name) :
    readTable (readSymbol bytes (padTo 8 (stringsOf groups.symtab).bytes)) 16
        (builder.offsets groups.symtab.length).symtab groups.symtab.length =
      some (groups.symtab.map viewEntry) := by
  have ends := inFile.strtab_le
  have padded := @length_le_padTo (stringsOf groups.symtab).bytes 8
  have short : (stringsOf groups.symtab).bytes.length < 2 ^ 32 := by omega
  refine readTable_of_hasAt viewEntry (fun entry _ => length_writeSymbol _ entry) inFile.symtab ?_
  intro entry mem at' has
  have named := stringsOf_hasAt short entry mem
  have inTable := named.le
  obtain ⟨entryFits, noZero⟩ := fits entry mem
  exact readSymbol_of_hasAt entryFits noZero (named.extend _) (by omega) has

end

theorem InFile.readSection (wellFormed : builder.WellFormed) (inFile : InFile builder groups bytes)
    (few : groups.symtab.length < 2 ^ 24)
    (isItem : item ∈ withRelocOffsets (builder.offsets groups.symtab.length).relocStart
      builder.placements) :
    ∃ part, readSection bytes (groups.symtab.map viewEntry)
      (headerOf builder.dataStart item) = some part ∧ Placed builder item.1 part := by
  have isPlaced := placement_of_item isItem
  have fits := fits_of_placement wellFormed isPlaced
  obtain ⟨has, infos⟩ := inFile.relocs item isItem
  have relocations : readTable (readReloc (groups.symtab.map viewEntry) bytes) 8
      (headerOf builder.dataStart item).reloff (headerOf builder.dataStart item).nreloc =
      some ((orderedRelocs item.1.part.relocs).map (placedReloc builder)) := by
    by_cases none : item.1.part.relocs = []
    · simp [headerOf, none, readTable, orderedRelocs]
    · have sizes : ∀ reloc ∈ orderedRelocs item.1.part.relocs,
          (relocBytes builder.placements groups.symtab reloc).length = 8 := by
        intro reloc mem
        obtain ⟨info, -, isBytes⟩ := infos reloc ((mem_insertionSort _).mp mem)
        rw [isBytes, length_writeFields]
        rfl
      have read := readTable_of_hasAt (placedReloc builder) sizes has
        (fun reloc mem _ hasReloc => by
          have isReloc := (mem_insertionSort _).mp mem
          obtain ⟨info, made, isBytes⟩ := infos reloc isReloc
          exact readReloc_of_hasAt (fits.relocs reloc isReloc) few made (isBytes ▸ hasReloc))
      rw [length_orderedRelocs] at read
      simp only [headerOf, if_neg none]
      exact read
  refine ⟨_, by rw [MachO.readSection, relocations]; rfl, rfl, rfl, rfl, rfl, rfl, ?_, ?_, ?_⟩
  · simp only [headerOf, ← fits.zerofill]
    by_cases zeros : item.1.part.zerofill = true
    · rw [if_pos zeros, if_pos zeros, MachOSection.contentSize, if_pos zeros]
    · obtain ⟨contents, made, hasContents⟩ := inFile.contents item.1 isPlaced (by simpa using zeros)
      rw [if_neg zeros]
      refine ⟨contents, made, ?_⟩
      rw [if_neg zeros, if_neg zeros, MachOSection.contentSize, if_neg zeros,
        ← length_relocated made, hasContents.slice]
  · intro offset
    rw [filter_map]
    congr 1
    exact orderedRelocs_filter item.1.part.relocs offset
  · intro reloc isReloc isLocal
    obtain ⟨info, made, -⟩ := infos reloc isReloc
    cases found : find builder.placements reloc.sectionId with
    | none => simp [relocInfo, isLocal, found] at made
    | some place => exact ⟨place, rfl⟩

theorem mapM_exists {α β : Type} {f : α → Option β} {related : α → β → Prop} {list : List α}
    (each : ∀ element ∈ list, ∃ result, f element = some result ∧ related element result) :
    ∃ results, list.mapM f = some results ∧ Forall₂ related list results := by
  induction list with
  | nil => exact ⟨[], rfl, .nil⟩
  | cons element list ih =>
    obtain ⟨result, made, holds⟩ := each element (mem_cons_self ..)
    obtain ⟨results, allMade, allHold⟩ := ih
      fun element mem => each element (mem_cons_of_mem _ mem)
    refine ⟨result :: results, ?_, .cons holds allHold⟩
    rw [mapM_cons, made, allMade]
    rfl

theorem offsets_ascend (builder : MachOBuilder) (symbolCount : ℕ) :
    (∀ placement ∈ builder.placements, placement.part.zerofill = false →
      builder.headerEnd ≤ builder.dataStart + placement.addr ∧
      builder.dataStart + placement.addr + placement.part.bytes.length ≤
        (builder.offsets symbolCount).relocStart) ∧
      builder.headerEnd ≤ (builder.offsets symbolCount).relocStart := by
  have start := headerEnd_le_dataStart builder
  have aligned : fileCursor builder.dataStart builder.placements ≤
      (builder.offsets symbolCount).relocStart := le_alignUp _ (by decide)
  obtain ⟨first, ends⟩ := @le_cursorAfter builder.placements builder.dataStart builder.dataStart
    (place_ordered 0 builder.order) (fun _ _ => Nat.le_add_right _ _)
  refine ⟨?_, start.trans (first.trans aligned)⟩
  intro placement isPlaced filled
  exact ⟨start.trans (Nat.le_add_right _ _), (ends placement isPlaced filled).trans aligned⟩

theorem items_ordered (builder : MachOBuilder) (offset : ℕ) :
    (withRelocOffsets offset builder.placements).Pairwise fun first second =>
      EndsBefore first.1 second.1 := by
  have ordered := place_ordered 0 builder.order
  change builder.placements.Pairwise EndsBefore at ordered
  rw [← withRelocOffsets_map offset builder.placements, pairwise_map] at ordered
  exact ordered

theorem mem_contentRanges (wellFormed : builder.WellFormed) {range : ℕ × ℕ}
    (mem : range ∈ ((headersOf builder groups).filter (!isZerofill ·.flags)).map
      fun header => (header.offset, header.size)) :
    ∃ placement ∈ builder.placements, placement.part.zerofill = false ∧
      range = (builder.dataStart + placement.addr, placement.part.bytes.length) := by
  obtain ⟨header, isHeader, rfl⟩ := List.mem_map.mp mem
  obtain ⟨isHeader, filled⟩ := mem_filter.mp isHeader
  obtain ⟨item, isItem, rfl⟩ := List.mem_map.mp isHeader
  have isPlaced := placement_of_item isItem
  have same := (fits_of_placement wellFormed isPlaced).zerofill
  have hasBytes : item.1.part.zerofill = false := by
    rw [same]
    simpa [headerOf] using filled
  refine ⟨item.1, isPlaced, hasBytes, ?_⟩
  simp [headerOf, hasBytes, MachOSection.contentSize]

theorem contentRanges_ordered (wellFormed : builder.WellFormed) :
    (((headersOf builder groups).filter (!isZerofill ·.flags)).map
      fun header => (header.offset, header.size)).Pairwise RangeBefore := by
  rw [headersOf, filter_map, map_map, pairwise_map]
  refine ((items_ordered builder _).filter _).imp_of_mem ?_
  intro first second isFirst isSecond before
  have filled : ∀ item ∈ (withRelocOffsets (builder.offsets groups.symtab.length).relocStart
      builder.placements).filter ((!isZerofill ·.flags) ∘ headerOf builder.dataStart),
      item.1.part.zerofill = false := by
    intro item mem
    obtain ⟨isItem, isFilled⟩ := mem_filter.mp mem
    rw [(fits_of_placement wellFormed (placement_of_item isItem)).zerofill]
    simpa [headerOf] using isFilled
  rw [EndsBefore] at before
  simp only [RangeBefore, comp_apply, headerOf, filled first isFirst,
    filled second isSecond, Bool.false_eq_true, if_false]
  omega

theorem mem_relocRanges {range : ℕ × ℕ}
    (mem : range ∈ ((headersOf builder groups).filter (·.nreloc ≠ 0)).map
      fun header => (header.reloff, header.nreloc * 8)) :
    ∃ item ∈ withRelocOffsets (builder.offsets groups.symtab.length).relocStart
      builder.placements, range = (item.2, item.1.part.relocs.length * 8) := by
  obtain ⟨header, isHeader, rfl⟩ := List.mem_map.mp mem
  obtain ⟨isHeader, some⟩ := mem_filter.mp isHeader
  obtain ⟨item, isItem, rfl⟩ := List.mem_map.mp isHeader
  have used : item.1.part.relocs ≠ [] := by
    intro none
    simp [headerOf, none] at some
  exact ⟨item, isItem, by simp [headerOf, used]⟩

theorem relocRanges_ordered :
    (((headersOf builder groups).filter (·.nreloc ≠ 0)).map
      fun header => (header.reloff, header.nreloc * 8)).Pairwise RangeBefore := by
  rw [headersOf, filter_map, map_map, pairwise_map]
  refine ((relocOffsets_ordered _ _).filter _).imp_of_mem ?_
  intro first second isFirst isSecond before
  have used : ∀ item ∈ (withRelocOffsets (builder.offsets groups.symtab.length).relocStart
      builder.placements).filter ((fun header => decide (header.nreloc ≠ 0)) ∘
        headerOf builder.dataStart), item.1.part.relocs ≠ [] := by
    intro item mem none
    have := (mem_filter.mp mem).2
    simp [headerOf, none] at this
  simp only [RangeBefore, comp_apply, headerOf, if_neg (used first isFirst),
    if_neg (used second isSecond)]
  exact before

/-- The ranges that the headers name, as the reader lists them. -/
def rangesOf (builder : MachOBuilder) (groups : Groups) : List (ℕ × ℕ) :=
  (0, builder.headerEnd) :: (sectionRanges (headersOf builder groups) ++
    [((builder.offsets groups.symtab.length).symtab, groups.symtab.length * 16),
      ((builder.offsets groups.symtab.length).strtab,
        (padTo 8 (stringsOf groups.symtab).bytes).length)])

theorem InFile.ranges_inside (wellFormed : builder.WellFormed)
    (inFile : InFile builder groups bytes) :
    ∀ range ∈ rangesOf builder groups, range.1 + range.2 ≤ bytes.length := by
  obtain ⟨-, headerBelow⟩ := offsets_ascend builder groups.symtab.length
  have symtabEnds := inFile.symtab.le
  rw [length_flatMap_const fun entry _ => length_writeSymbol _ entry] at symtabEnds
  have symtabOffset : (builder.offsets groups.symtab.length).relocStart ≤
      (builder.offsets groups.symtab.length).symtab := Nat.le_add_right _ _
  intro range mem
  simp only [rangesOf, sectionRanges, mem_cons, mem_append, not_mem_nil, or_false] at mem
  rcases mem with rfl | (isContent | isReloc) | rfl | rfl
  · simp only
    omega
  · obtain ⟨placement, isPlaced, filled, rfl⟩ := mem_contentRanges wellFormed isContent
    obtain ⟨contents, made, has⟩ := inFile.contents placement isPlaced filled
    rw [← length_relocated made]
    exact has.le
  · obtain ⟨item, isItem, rfl⟩ := mem_relocRanges isReloc
    exact inFile.relocs_le isItem
  · exact symtabEnds
  · exact inFile.strtab_le

theorem ranges_ordered (wellFormed : builder.WellFormed) :
    (rangesOf builder groups).Pairwise RangeBefore := by
  obtain ⟨contentsBetween, headerBelow⟩ := offsets_ascend builder groups.symtab.length
  have relocsBetween := @relocOffsets_bounds (builder.offsets groups.symtab.length).relocStart
    builder.placements
  have symtabOffset : (builder.offsets groups.symtab.length).symtab =
      (builder.offsets groups.symtab.length).relocStart + relocTotal builder.placements * 8 := rfl
  have strtabOffset : (builder.offsets groups.symtab.length).strtab =
      (builder.offsets groups.symtab.length).symtab + groups.symtab.length * 16 := rfl
  have contents : ∀ range ∈ ((headersOf builder groups).filter (!isZerofill ·.flags)).map
      (fun header => (header.offset, header.size)), builder.headerEnd ≤ range.1 ∧
        range.1 + range.2 ≤ (builder.offsets groups.symtab.length).relocStart := by
    intro range mem
    obtain ⟨placement, isPlaced, filled, rfl⟩ := mem_contentRanges wellFormed mem
    exact contentsBetween placement isPlaced filled
  have relocs : ∀ range ∈ ((headersOf builder groups).filter (·.nreloc ≠ 0)).map
      (fun header => (header.reloff, header.nreloc * 8)),
      (builder.offsets groups.symtab.length).relocStart ≤ range.1 ∧
        range.1 + range.2 ≤ (builder.offsets groups.symtab.length).symtab := by
    intro range mem
    obtain ⟨item, isItem, rfl⟩ := mem_relocRanges mem
    exact relocsBetween item isItem
  rw [rangesOf, sectionRanges]
  refine List.Pairwise.cons ?_ (pairwise_append.mpr ⟨pairwise_append.mpr
    ⟨contentRanges_ordered wellFormed, relocRanges_ordered, ?_⟩, ?_, ?_⟩)
  · intro range mem
    simp only [mem_append, mem_cons, not_mem_nil, or_false] at mem
    rw [RangeBefore]
    rcases mem with (isContent | isReloc) | rfl | rfl
    · have := (contents range isContent).1
      omega
    · have := (relocs range isReloc).1
      omega
    · simp only
      omega
    · simp only
      omega
  · intro first isContent second isReloc
    exact (contents first isContent).2.trans (relocs second isReloc).1
  · simp only [pairwise_cons, mem_singleton, not_mem_nil, forall_eq,
      IsEmpty.forall_iff, implies_true, List.Pairwise.nil, and_true]
    exact strtabOffset.ge
  · intro first isSection second isTable
    rw [RangeBefore]
    have before : first.1 + first.2 ≤ (builder.offsets groups.symtab.length).symtab := by
      rcases mem_append.mp isSection with isContent | isReloc
      · have := (contents first isContent).2
        omega
      · exact (relocs first isReloc).2
    simp only [mem_cons, not_mem_nil, or_false] at isTable
    rcases isTable with rfl | rfl
    · exact before
    · simp only
      omega

/-- What a reader finds in a file that was written, in terms of the placements. -/
theorem readMachO_placed (wellFormed : builder.WellFormed) (written : builder.write = .ok bytes)
    (small : bytes.length < 2 ^ 32) :
    ∃ file groups, readMachO bytes = some file ∧ builder.groups = .ok groups ∧
      Forall₂ (Placed builder) builder.placements file.sections ∧
      file.locals = (builder.symbols.filter (!·.external)).map (placedSymbol builder) ∧
      file.external.Perm ((builder.symbols.filter (·.external)).map (placedSymbol builder)) ∧
      file.undefined.Perm (builder.commons.map viewCommon ++
        builder.undefinedNames.map viewUndefined) ∧
      file.ranges.Pairwise RangeBefore ∧
      ∀ range ∈ file.ranges, range.1 + range.2 ≤ bytes.length := by
  obtain ⟨groups, made, inFile⟩ := inFile_write wellFormed written
  have isGrouped := grouped made
  have few : groups.symtab.length < 2 ^ 24 := by
    rw [isGrouped.count]
    exact wellFormed.symbolCount
  have headers := inFile.readSegment wellFormed small
  have symtab := inFile.readSymtabCommand small few
  have dysymtab := inFile.readDysymtabCommand few
  have symbols := inFile.readSymbols small (isGrouped.fits wellFormed)
  have commands := inFile.commands.readCommands wellFormed
  have strings := inFile.strtab.slice
  obtain ⟨sections, readSections, reads⟩ := mapM_exists fun item isItem =>
    inFile.readSection wellFormed few isItem
  have sizeFits : builder.sizeofcmds % 256 ^ 4 = builder.sizeofcmds := by
    have := wellFormed.few
    rw [MachOBuilder.sizeofcmds, MachOBuilder.segmentCmdSize]
    exact mod_eq_of_lt (by omega)
  have fields := readFields_of_hasAt inFile.commands.header
  simp only [map_cons, map_nil, sizeFits] at fields
  have placed : Forall₂ (Placed builder) builder.placements sections := by
    rw [← withRelocOffsets_map (builder.offsets groups.symtab.length).relocStart
      builder.placements, forall₂_map_left_iff]
    exact reads
  let views := groups.symtab.map viewEntry
  have split : views = groups.locals.map viewEntry ++ groups.extdefs.map viewEntry ++
      groups.undefs.map viewEntry := by
    simp [views, Groups.symtab]
  let file : MachOFile :=
    { sections := sections
      locals := (views.drop 0).take groups.locals.length
      external := (views.drop groups.locals.length).take groups.extdefs.length
      undefined := (views.drop (groups.locals.length + groups.extdefs.length)).take
        groups.undefs.length
      ranges := rangesOf builder groups }
  have locals : file.locals = groups.locals.map viewEntry := by
    simp [file, split]
  have external : file.external = groups.extdefs.map viewEntry := by
    simp [file, split, append_assoc]
  have undefined : file.undefined = groups.undefs.map viewEntry := by
    simp [file, split, ← drop_drop, take_of_length_le]
  refine ⟨file, groups, ?_, made, placed, locals.trans isGrouped.locals, external ▸ isGrouped.extdefs,
    undefined ▸ isGrouped.undefinedViews wellFormed, ranges_ordered wellFormed,
    inFile.ranges_inside wellFormed⟩
  have magic : mhMagic64 % 256 ^ 4 = mhMagic64 := by decide
  have four : 4 % 256 ^ 4 = 4 := by decide
  have findSegment : findCommand [(lcSegment64, 32),
      (lcBuildVersion, 32 + builder.segmentCmdSize), (lcSymtab, 32 + builder.segmentCmdSize + 24),
      (lcDysymtab, 32 + builder.segmentCmdSize + 24 + 24)] lcSegment64 = some 32 := rfl
  have findSymtab : findCommand [(lcSegment64, 32),
      (lcBuildVersion, 32 + builder.segmentCmdSize), (lcSymtab, 32 + builder.segmentCmdSize + 24),
      (lcDysymtab, 32 + builder.segmentCmdSize + 24 + 24)] lcSymtab =
      some (32 + builder.segmentCmdSize + 24) := rfl
  have findDysymtab : findCommand [(lcSegment64, 32),
      (lcBuildVersion, 32 + builder.segmentCmdSize), (lcSymtab, 32 + builder.segmentCmdSize + 24),
      (lcDysymtab, 32 + builder.segmentCmdSize + 24 + 24)] lcDysymtab =
      some (32 + builder.segmentCmdSize + 24 + 24) := rfl
  have mapped : (headersOf builder groups).mapM (readSection bytes views) = some sections := by
    rw [headersOf, mapM_map]
    exact readSections
  simp only [readMachO, fields, magic, four, if_true, commands, findSegment, findSymtab,
    findDysymtab, headers, symtab, dysymtab, strings, symbols, Option.bind_eq_bind,
    Option.bind_some, mapped, views, file, rangesOf, MachOBuilder.headerEnd, pure]

end Reading

end Aburi.Backend.MachO
