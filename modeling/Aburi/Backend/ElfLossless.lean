import Aburi.Backend.ElfSymbols

/-!
# The ELF writer is lossless

A reader that knows only the format finds in a written file what the builder
held: the sections with their contents and relocations, the symbols with the
local ones first, and blocks at aligned offsets that do not overlap.
-/

namespace Aburi.Backend.Elf

open Aburi.Lib List Nat
open Prod (fst snd)

section Payloads

variable {builder : ElfBuilder} {payloads : List (List UInt8)} {tables : SymbolTables}

theorem Payload.eq_nil_iff {cls : ElfClass} {data : ByteOrder} {contentCount : ℕ}
    {added : List Added} {payload : List UInt8} {relocs : List ElfReloc}
    (holds : Payload cls data contentCount added payload relocs) :
    payload = [] ↔ relocs = [] := by
  obtain ⟨items, rfl, rfl, -⟩ := holds
  have size : (relocBytes cls data items).length = items.length * cls.relaEntsize :=
    length_flatMap_const fun item _ => length_writeReloc item.1 item.2
  rw [← length_eq_zero_iff, size, Nat.mul_eq_zero, map_eq_nil_iff, ← length_eq_zero_iff]
  have := relaEntsize_pos cls
  omega

/-- Payloads are empty where there are no relocations. -/
def Matching (parts : List ElfSection) (payloads : List (List UInt8)) : Prop :=
  Forall₂ (fun part payload => payload = [] ↔ part.relocs = []) parts payloads

theorem Matching.names {parts : List ElfSection} (matching : Matching parts payloads)
    (cls : ElfClass) (symtabIndex first : ℕ) :
    (((parts.zip payloads).zipIdx first).flatMap (relaItems cls symtabIndex)).map (·.name) =
      (parts.filter (·.relocs ≠ [])).map fun part => text ".rela" ++ part.name := by
  induction matching generalizing first with
  | nil => rfl
  | @cons part payload parts payloads same _ ih =>
    rw [zip_cons_cons, zipIdx_cons, flatMap_cons, map_append,
      ih, filter_cons, relaItems]
    by_cases empty : payload = []
    · simp [empty, same.mp empty]
    · have used : part.relocs ≠ [] := fun none => empty (same.mpr none)
      simp [empty, used, relaItem]

theorem Matching.relaCount {parts : List ElfSection} (matching : Matching parts payloads) :
    ElfBuilder.relaCount payloads = (parts.filter (·.relocs ≠ [])).length := by
  induction matching with
  | nil => rfl
  | @cons part payload parts payloads same _ ih =>
    rw [ElfBuilder.relaCount, filter_cons, filter_cons]
    rw [ElfBuilder.relaCount] at ih
    by_cases empty : payload = []
    · simpa [empty, same.mp empty] using ih
    · have used : part.relocs ≠ [] := fun none => empty (same.mpr none)
      simpa [empty, used] using ih

theorem filter_zipIdx {α : Type} (list : List α) (first i : ℕ) (inside : i < list.length) :
    (list.zipIdx first).filter (fun item => item.2 = first + i) = [(list[i], first + i)] := by
  induction list generalizing first i with
  | nil => simp at inside
  | cons head list ih =>
    rw [zipIdx_cons, filter_cons]
    cases i with
    | zero =>
      rw [if_pos (by simp)]
      refine congrArg₂ cons (by simp) (filter_eq_nil_iff.mpr ?_)
      intro item mem
      have := le_snd_of_mem_zipIdx mem
      simp only [decide_eq_true_eq]
      omega
    | succ i =>
      have rest := ih (first + 1) i (by simpa using inside)
      rw [show first + 1 + i = first + (i + 1) by omega] at rest
      simp [rest]

theorem flatMap_selected {α β : Type} (selected : α → Prop) [DecidablePred selected]
    (f : α → List β) (list : List α) :
    list.flatMap (fun item => if selected item then f item else []) =
      (list.filter selected).flatMap f := by
  induction list with
  | nil => rfl
  | cons item list ih =>
    rw [flatMap_cons, ih, filter_cons]
    by_cases isSelected : selected item <;> simp [isSelected]

/-- The section at a place has at most one header for its relocations. -/
theorem allRelaItems_filter (matching : Matching builder.sections payloads) {i : ℕ}
    (inside : i < builder.sections.length) (few : builder.sections.length < 65280) :
    ∃ payload, payloads[i]? = some payload ∧
      (builder.allRelaItems payloads).filter (fun item => item.slot.info = i + 1) =
        relaItems builder.cls (builder.symtabIndex payloads)
          ((builder.sections[i], payload), i) := by
  have lengths : builder.sections.length = payloads.length := List.Forall₂.length_eq matching
  have inside' : i < payloads.length := lengths ▸ inside
  refine ⟨payloads[i], getElem?_eq_getElem inside', ?_⟩
  have insideZip : i < (builder.sections.zip payloads).length := by
    rw [length_zip]
    omega
  have one := filter_zipIdx (builder.sections.zip payloads) 0 i insideZip
  rw [Nat.zero_add, getElem_zip] at one
  have infos : ∀ item ∈ (builder.sections.zip payloads).zipIdx,
      (relaItems builder.cls (builder.symtabIndex payloads) item).filter
        (fun rela => rela.slot.info = i + 1) =
      if item.2 = i then relaItems builder.cls (builder.symtabIndex payloads) item else [] := by
    intro item mem
    have below := snd_lt_of_mem_zipIdx mem
    rw [length_zip] at below
    have small : (item.2 + 1) % 2 ^ 32 = item.2 + 1 := mod_eq_of_lt (by omega)
    rw [relaItems]
    by_cases empty : item.1.2 = []
    · simp [empty]
    · by_cases same : item.2 = i
      · simp [empty, same, relaItem, relaSlot] at small ⊢
        omega
      · simp [empty, same, relaItem, relaSlot] at small ⊢
        omega
  rw [ElfBuilder.allRelaItems, filter_flatMap]
  rw [flatMap_congr infos, flatMap_selected, one]
  simp

end Payloads

/-- The names of the headers are an item of their own. -/
def lastItem (builder : ElfBuilder) (payloads : List (List UInt8)) (tables : SymbolTables) : Item :=
  ⟨ElfBuilder.lastName, strtabSlot, some (builder.contents payloads tables).shstrtab.bytes⟩

/-- The headers of the contents with what they stand for. -/
def placedPairs (builder : ElfBuilder) (payloads : List (List UInt8)) (tables : SymbolTables)
    (null : HeaderSlot) (parts relas : List (HeaderSlot × Item))
    (symtab strtab last : HeaderSlot) : List (HeaderSlot × Item) :=
  (null, ElfBuilder.nullItem) :: (parts ++ (relas ++
    [(symtab, builder.symtabItem payloads tables), (strtab, ElfBuilder.strtabItem tables),
      (last, lastItem builder payloads tables)]))

structure Placed (builder : ElfBuilder) (payloads : List (List UInt8)) (tables : SymbolTables)
    (null : HeaderSlot) (parts relas : List (HeaderSlot × Item)) (symtab strtab last : HeaderSlot) :
    Prop where
  headers : (builder.contents payloads tables).headers =
    null :: (parts.map fst ++ (relas.map fst ++ [symtab, strtab, last]))
  partItems : parts.map snd = builder.sectionItems
  relaItems : relas.map snd = builder.allRelaItems payloads
  stands : ∀ pair ∈ placedPairs builder payloads tables null parts relas symtab strtab last,
    Stands builder.cls.ehdrSize (builder.contents payloads tables) pair.1 pair.2
  apart : (placedPairs builder payloads tables null parts relas symtab strtab last).Pairwise Before
  start_le : builder.cls.ehdrSize ≤ (builder.contents payloads tables).file.length
  names_lt : (builder.contents payloads tables).shstrtab.bytes.length < 2 ^ 32

variable {pair : HeaderSlot × Item}

section Reading

variable {builder : ElfBuilder} {payloads : List (List UInt8)} {tables : SymbolTables}
  {null symtab strtab last : HeaderSlot} {parts relas : List (HeaderSlot × Item)}

theorem ElfBuilder.itemsBefore_names (matching : Matching builder.sections payloads) :
    (builder.itemsBefore payloads tables).map (·.name) ++ [lastName] =
      [] :: builder.headerNames := by
  have sections : builder.sectionItems.map (·.name) = builder.sections.map (·.name) := by
    rw [sectionItems, map_map]
    exact map_congr_left fun part _ => sectionItem_name part
  have relas := matching.names builder.cls (builder.symtabIndex payloads) 0
  simp only [itemsBefore, map_cons, map_append, sections, allRelaItems, relas,
    headerNames, map_nil, cons_append, append_assoc, nil_append]
  rfl

theorem exists_placed (wellFormed : builder.WellFormed)
    (matching : Matching builder.sections payloads) :
    ∃ null parts relas symtab strtab last,
      Placed builder payloads tables null parts relas symtab strtab last := by
  have room : nameRoom ((builder.itemsBefore payloads tables).map (·.name) ++
      [ElfBuilder.lastName]) < 2 ^ 32 := by
    rw [ElfBuilder.itemsBefore_names matching]
    have := wellFormed.headerNames
    simp only [nameRoom, map_cons, sum_cons, length_nil] at this ⊢
    omega
  obtain ⟨pairs, last, holds, items⟩ := builder.contents_hold payloads tables room
  have short : (builder.contents payloads tables).shstrtab.bytes.length < 2 ^ 32 := by
    refine lt_of_le_of_lt holds.room ?_
    rw [← items, map_map] at room
    rw [map_append]
    exact room
  rw [ElfBuilder.itemsBefore] at items
  obtain ⟨⟨null, nullItem'⟩, rest, rfl, isNull, items⟩ := map_eq_cons_iff.mp items
  obtain ⟨front, back, rfl, items, ends⟩ := map_eq_append_iff.mp items
  obtain ⟨parts, relas, rfl, areParts, areRelas⟩ := map_eq_append_iff.mp items
  obtain ⟨⟨symtab, item⟩, rest, rfl, isSymtab, ends⟩ := map_eq_cons_iff.mp ends
  obtain ⟨⟨strtab, item'⟩, rest, rfl, isStrtab, ends⟩ := map_eq_cons_iff.mp ends
  obtain rfl := map_eq_nil_iff.mp ends
  simp only at isNull isSymtab isStrtab
  subst isNull isSymtab isStrtab
  refine ⟨null, parts, relas, symtab, strtab, last, ?_, areParts, areRelas, ?_, ?_,
    holds.start_le, short⟩
  · rw [holds.headers]
    simp
  · simpa [placedPairs, lastItem] using holds.stands
  · simpa [placedPairs, lastItem] using holds.apart

theorem length_fileHeader (builder : ElfBuilder) (shoff headerCount shstrtabIndex : ℕ) :
    (builder.fileHeader shoff headerCount shstrtabIndex).length = builder.cls.ehdrSize := by
  rw [ElfBuilder.fileHeader, length_append, length_writeFields]
  simp only [ElfBuilder.fileHeaderFields, ElfBuilder.ident, length_append, length_cons, length_nil,
    length_replicate, map_cons, map_nil, sum_cons, sum_nil]
  cases builder.cls <;> rfl

/-- The offset of the section headers. -/
def headersOffset (builder : ElfBuilder) (payloads : List (List UInt8)) (tables : SymbolTables) :
    ℕ :=
  (padTo builder.cls.wordSize (builder.contents payloads tables).file).length

/-- Where the parts of the file are. -/
structure InFile (builder : ElfBuilder) (payloads : List (List UInt8)) (tables : SymbolTables)
    (bytes : List UInt8) : Prop where
  header : ∃ rest, bytes = builder.fileHeader (headersOffset builder payloads tables)
    (builder.contents payloads tables).headers.length
    ((builder.symtabIndex payloads + 2) % 2 ^ 32) ++ rest
  headers : HasAt bytes (headersOffset builder payloads tables)
    ((builder.contents payloads tables).headers.flatMap (writeHeader builder.cls builder.data))
  block : ∀ offset content, HasAt (builder.contents payloads tables).file offset content →
    builder.cls.ehdrSize ≤ offset → HasAt bytes offset content
  length_le : (builder.contents payloads tables).file.length ≤ bytes.length

theorem inFile_assemble
    (start_le : builder.cls.ehdrSize ≤ (builder.contents payloads tables).file.length) :
    InFile builder payloads tables (builder.assemble payloads tables) := by
  let header := builder.fileHeader (headersOffset builder payloads tables)
    (builder.contents payloads tables).headers.length
    ((builder.symtabIndex payloads + 2) % 2 ^ 32)
  have size : header.length = builder.cls.ehdrSize := length_fileHeader ..
  have padded : (builder.contents payloads tables).file.length ≤
      headersOffset builder payloads tables := length_le_padTo _
  have survives : ∀ offset content,
      HasAt (padTo builder.cls.wordSize (builder.contents payloads tables).file ++
        (builder.contents payloads tables).headers.flatMap
          (writeHeader builder.cls builder.data)) offset content →
      builder.cls.ehdrSize ≤ offset → HasAt (builder.assemble payloads tables) offset content := by
    intro offset content has behind
    exact has.overwrite (size ▸ behind)
  refine ⟨⟨_, rfl⟩, ?_, ?_, ?_⟩
  · exact survives _ _ (hasAt_end _ _) (start_le.trans padded)
  · intro offset content has behind
    refine survives _ _ ?_ behind
    exact (has.grow (prefix_append _ _)).grow (prefix_append _ _)
  · have whole := (survives _ _ (hasAt_end _ _) (start_le.trans padded)).le
    exact padded.trans ((Nat.le_add_right _ _).trans whole)

variable {bytes : List UInt8}

theorem InFile.readIdent (inFile : InFile builder payloads tables bytes) :
    readIdent bytes = some (builder.cls, builder.data) := by
  obtain ⟨rest, rfl⟩ := inFile.header
  rw [ElfBuilder.fileHeader, ElfBuilder.ident]
  cases builder.cls <;> cases builder.data <;> rfl

theorem InFile.readFileHeader (inFile : InFile builder payloads tables bytes)
    (offsetFits : builder.cls.Fits (headersOffset builder payloads tables))
    (few : (builder.contents payloads tables).headers.length < 2 ^ 16)
    (lastFits : (builder.symtabIndex payloads + 2) % 2 ^ 32 < 2 ^ 16) :
    readFileHeader builder.cls builder.data bytes =
      some ⟨builder.machine.toNat, headersOffset builder payloads tables, builder.eFlags.toNat,
        builder.cls.shdrSize, (builder.contents payloads tables).headers.length,
        (builder.symtabIndex payloads + 2) % 2 ^ 32⟩ := by
  obtain ⟨rest, isBytes⟩ := inFile.header
  have has : HasAt bytes 16 (writeFields builder.data (builder.fileHeaderFields
      (headersOffset builder payloads tables) (builder.contents payloads tables).headers.length
      ((builder.symtabIndex payloads + 2) % 2 ^ 32))) := by
    refine ⟨ElfBuilder.ident builder.cls builder.data, rest, ?_, rfl⟩
    rw [isBytes, ElfBuilder.fileHeader, append_assoc]
  have fields := readFields_of_hasAt has
  have machineFits : builder.machine.toNat < 256 ^ 2 := builder.machine.toNat_lt
  have flagsFit : builder.eFlags.toNat < 256 ^ 4 := builder.eFlags.toNat_lt
  have entryFits : builder.cls.shdrSize < 256 ^ 2 := by cases builder.cls <;> decide
  simp only [ElfBuilder.fileHeaderFields, map_cons, map_nil] at fields
  simp only [Elf.readFileHeader, fields, mod_eq_of_lt machineFits, mod_eq_of_lt flagsFit,
    mod_eq_of_lt (show _ < 256 ^ builder.cls.wordSize from offsetFits),
    mod_eq_of_lt (show _ < 256 ^ 2 from few), mod_eq_of_lt (show _ < 256 ^ 2 from lastFits),
    mod_eq_of_lt entryFits]

/-- What the header of the item says about it fits. -/
structure Item.Fits (cls : ElfClass) (item : Item) : Prop where
  shType : item.slot.shType < 256 ^ 4
  flags : cls.Fits item.slot.flags
  size : cls.Fits item.slot.size
  link : item.slot.link < 256 ^ 4
  info : item.slot.info < 256 ^ 4
  align : cls.Fits item.slot.align
  entsize : cls.Fits item.slot.entsize

variable {layout : Layout} {header : HeaderSlot}

theorem Stands.fits {start : ℕ} {item : Item} {cls : ElfClass}
    (stands : Stands start layout header item) (itemFits : item.Fits cls)
    (namesFit : layout.shstrtab.bytes.length < 2 ^ 32) (fileFits : cls.Fits layout.file.length) :
    header.Fits cls := by
  have inTable := stands.named.le
  rw [length_append, length_singleton] at inTable
  have sizeFits : cls.Fits header.size := by
    cases isContent : item.content with
    | none =>
      have size := stands.size
      rw [isContent] at size
      rw [size]
      exact itemFits.size
    | some content =>
      have ends := stands.end_le (by rw [isContent]; rfl)
      exact lt_of_le_of_lt ((Nat.le_add_left _ _).trans ends) fileFits
  have offsetFits : cls.Fits header.offset := lt_of_le_of_lt stands.within fileFits
  have nameFits : header.name < 256 ^ 4 := by omega
  have slot := stands.slot
  rw [slot]
  exact ⟨nameFits, itemFits.shType, itemFits.flags, offsetFits, sizeFits, itemFits.link,
    itemFits.info, itemFits.align, itemFits.entsize⟩

theorem ElfSection.Fits.item {cls : ElfClass} {part : ElfSection} (fits : part.Fits cls) :
    (sectionItem part).Fits cls := by
  have zero : cls.Fits 0 := fits_of_lt32 cls (by decide)
  have zeroWord : 0 < 256 ^ 4 := by decide
  have typeFits : part.shType.toNat < 256 ^ 4 := part.shType.toNat_lt
  have alignFits : cls.Fits part.align.toNat := fits_of_lt32 cls part.align.toNat_lt
  unfold sectionItem
  split
  · exact ⟨typeFits, fits.flags, fits.nobitsSize, zeroWord, zeroWord, alignFits, fits.entsize⟩
  · exact ⟨typeFits, fits.flags, zero, zeroWord, zeroWord, alignFits, fits.entsize⟩

theorem Placed.itemsFit (wellFormed : builder.WellFormed)
    (placed : Placed builder payloads tables null parts relas symtab strtab last) :
    ∀ pair ∈ placedPairs builder payloads tables null parts relas symtab strtab last,
      pair.2.Fits builder.cls := by
  intro pair mem
  have zero : builder.cls.Fits 0 := fits_of_lt32 _ (by decide)
  have one : builder.cls.Fits 1 := fits_of_lt32 _ (by decide)
  have zeroWord : 0 < 256 ^ 4 := by decide
  have wordFits : builder.cls.Fits builder.cls.wordSize :=
    fits_of_lt32 _ (by cases builder.cls <;> decide)
  have indexFits : ∀ index, index % 2 ^ 32 < 256 ^ 4 := fun index => mod_lt _ (by decide)
  simp only [placedPairs, mem_cons, mem_append, not_mem_nil, or_false] at mem
  rcases mem with rfl | isPart | isRela | rfl | rfl | rfl
  · exact ⟨zeroWord, zero, zero, zeroWord, zeroWord, zero, zero⟩
  · have isItem : pair.2 ∈ builder.sectionItems := placed.partItems ▸ mem_map_of_mem isPart
    obtain ⟨part, isPart, same⟩ := List.mem_map.mp isItem
    rw [← same]
    exact (wellFormed.sections part isPart).item
  · have isItem : pair.2 ∈ builder.allRelaItems payloads :=
      placed.relaItems ▸ mem_map_of_mem isRela
    obtain ⟨item, -, isRela⟩ := mem_flatMap.mp isItem
    unfold Elf.relaItems at isRela
    split at isRela
    · simp at isRela
    · rw [mem_singleton.mp isRela]
      have relaType : shtRela < 256 ^ 4 := by decide
      have flagsFit : builder.cls.Fits shfInfoLink := fits_of_lt32 _ (by decide)
      have entryFits : builder.cls.Fits builder.cls.relaEntsize :=
        fits_of_lt32 _ (by cases builder.cls <;> decide)
      exact ⟨relaType, flagsFit, zero, indexFits _, indexFits _, wordFits, entryFits⟩
  · have symtabType : shtSymtab < 256 ^ 4 := by decide
    have entryFits : builder.cls.Fits builder.cls.symEntsize :=
      fits_of_lt32 _ (by cases builder.cls <;> decide)
    exact ⟨symtabType, zero, zero, indexFits _, indexFits _, wordFits, entryFits⟩
  · have strtabType : shtStrtab < 256 ^ 4 := by decide
    exact ⟨strtabType, zero, zero, zeroWord, zeroWord, one, zero⟩
  · have strtabType : shtStrtab < 256 ^ 4 := by decide
    exact ⟨strtabType, zero, zero, zeroWord, zeroWord, one, zero⟩

theorem Placed.headers_eq
    (placed : Placed builder payloads tables null parts relas symtab strtab last) :
    (builder.contents payloads tables).headers =
      (placedPairs builder payloads tables null parts relas symtab strtab last).map fst := by
  rw [placed.headers, placedPairs]
  simp

/-- The section headers are read back. -/
theorem Placed.readHeaders (wellFormed : builder.WellFormed)
    (placed : Placed builder payloads tables null parts relas symtab strtab last)
    (inFile : InFile builder payloads tables bytes) (fitsFile : builder.cls.Fits bytes.length) :
    readTable (readHeader builder.cls builder.data bytes) builder.cls.shdrSize
        (headersOffset builder payloads tables)
        (builder.contents payloads tables).headers.length =
      some (builder.contents payloads tables).headers := by
  have fileFits : builder.cls.Fits (builder.contents payloads tables).file.length :=
    lt_of_le_of_lt inFile.length_le fitsFile
  have read := readTable_of_hasAt id (fun slot _ => length_writeHeader slot) inFile.headers
    (fun slot mem _ has => by
      rw [placed.headers_eq] at mem
      obtain ⟨pair, isPair, rfl⟩ := List.mem_map.mp mem
      exact readHeader_of_hasAt ((placed.stands pair isPair).fits
        (placed.itemsFit wellFormed pair isPair) placed.names_lt fileFits) has)
  rwa [map_id] at read

theorem Placed.lengths
    (placed : Placed builder payloads tables null parts relas symtab strtab last)
    (matching : Matching builder.sections payloads) (wellFormed : builder.WellFormed) :
    parts.length = builder.sections.length ∧
      relas.length = ElfBuilder.relaCount payloads ∧
      builder.symtabIndex payloads = 1 + parts.length + relas.length ∧
      (builder.contents payloads tables).headers.length = builder.headerCount := by
  have partCount : parts.length = builder.sections.length := by
    have := congrArg length placed.partItems
    simpa [ElfBuilder.sectionItems] using this
  have relaCount : relas.length = ElfBuilder.relaCount payloads := by
    have names := congrArg length (matching.names builder.cls (builder.symtabIndex payloads) 0)
    have items := congrArg length placed.relaItems
    rw [length_map, ElfBuilder.allRelaItems] at items
    rw [length_map, length_map] at names
    rw [matching.relaCount, items, names]
  have few := wellFormed.headers
  rw [ElfBuilder.headerCount, ← matching.relaCount] at few
  refine ⟨partCount, relaCount, ?_, ?_⟩
  · rw [ElfBuilder.symtabIndex, partCount, relaCount, mod_eq_of_lt (by omega)]
  · rw [placed.headers, ElfBuilder.headerCount, ← matching.relaCount]
    simp only [length_cons, length_append, length_map, length_nil, partCount, relaCount]
    omega

/-- The block of an item is what the header of the item points to. -/
theorem block_eq {item : Item} {content : List UInt8} {start : ℕ}
    (stands : Stands start layout header item) (isContent : item.content = some content)
    (has : HasAt bytes header.offset content) : block bytes header = content := by
  have size := stands.size
  rw [isContent] at size
  rw [block, size]
  exact has.slice

theorem InFile.hasAt_item (inFile : InFile builder payloads tables bytes) {item : Item}
    {content : List UInt8}
    (stands : Stands builder.cls.ehdrSize (builder.contents payloads tables) header item)
    (isContent : item.content = some content) : HasAt bytes header.offset content := by
  obtain ⟨has, behind, -⟩ := stands.block content isContent
  exact inFile.block _ _ has behind

section

variable {start : ℕ} {item : Item} (stands : Stands start layout header item)
include stands

theorem Stands.shType_eq : header.shType = item.slot.shType := by
  rw [stands.slot]

theorem Stands.info_eq : header.info = item.slot.info := by
  rw [stands.slot]

end

theorem sectionItem_shType (part : ElfSection) :
    (sectionItem part).slot.shType = part.shType.toNat := by
  unfold sectionItem
  split <;> rfl

section Sections

variable (wellFormed : builder.WellFormed)
  (placed : Placed builder payloads tables null parts relas symtab strtab last)

include wellFormed placed

theorem Placed.partType (isPart : pair ∈ parts) :
    pair.1.shType ≠ shtNull ∧ pair.1.shType ≠ shtSymtab ∧ pair.1.shType ≠ shtRela := by
  have stands := placed.stands pair (by simp [placedPairs, isPart])
  have isItem : pair.2 ∈ builder.sectionItems := placed.partItems ▸ mem_map_of_mem isPart
  obtain ⟨part, inBuilder, same⟩ := List.mem_map.mp isItem
  have fits := wellFormed.sections part inBuilder
  rw [stands.shType_eq, ← same, sectionItem_shType]
  exact ⟨fits.notNull, fits.notSymtab, fits.notRela⟩

omit wellFormed in
theorem Placed.relaType (isRela : pair ∈ relas) :
    pair.1.shType = shtRela ∧ pair.2.slot.shType = shtRela := by
  have stands := placed.stands pair (by simp [placedPairs, isRela])
  have isItem : pair.2 ∈ builder.allRelaItems payloads :=
    placed.relaItems ▸ mem_map_of_mem isRela
  obtain ⟨item, -, isRela⟩ := mem_flatMap.mp isItem
  unfold Elf.relaItems at isRela
  split at isRela
  · simp at isRela
  · have same := mem_singleton.mp isRela
    rw [stands.shType_eq, same]
    exact ⟨rfl, rfl⟩

omit wellFormed in
theorem Placed.standsSymtab : Stands builder.cls.ehdrSize (builder.contents payloads tables)
    symtab (builder.symtabItem payloads tables) :=
  placed.stands (symtab, builder.symtabItem payloads tables) (by simp [placedPairs])

omit wellFormed in
theorem Placed.standsStrtab : Stands builder.cls.ehdrSize (builder.contents payloads tables)
    strtab (ElfBuilder.strtabItem tables) :=
  placed.stands (strtab, ElfBuilder.strtabItem tables) (by simp [placedPairs])

omit wellFormed in
theorem Placed.standsLast : Stands builder.cls.ehdrSize (builder.contents payloads tables)
    last (lastItem builder payloads tables) :=
  placed.stands (last, lastItem builder payloads tables) (by simp [placedPairs])

omit wellFormed in
theorem Placed.tableTypes :
    null.shType = shtNull ∧ symtab.shType = shtSymtab ∧ strtab.shType = shtStrtab ∧
      last.shType = shtStrtab :=
  ⟨(placed.stands (null, ElfBuilder.nullItem) (by simp [placedPairs])).shType_eq,
    placed.standsSymtab.shType_eq, placed.standsStrtab.shType_eq, placed.standsLast.shType_eq⟩

/-- The headers of relocations that name the section at a place. -/
theorem Placed.relaHeaders {i : ℕ} :
    (builder.contents payloads tables).headers.filter
        (fun slot => slot.shType = shtRela ∧ slot.info = i + 1) =
      (relas.filter fun pair => pair.2.slot.info = i + 1).map fst := by
  obtain ⟨nullType, symtabType, strtabType, lastType⟩ := placed.tableTypes
  have noParts : (parts.map fst).filter
      (fun slot => slot.shType = shtRela ∧ slot.info = i + 1) = [] := by
    rw [filter_eq_nil_iff]
    intro slot mem
    obtain ⟨pair, isPart, rfl⟩ := List.mem_map.mp mem
    have := (placed.partType wellFormed isPart).2.2
    simp [this]
  have someRelas : (relas.map fst).filter
      (fun slot => slot.shType = shtRela ∧ slot.info = i + 1) =
      (relas.filter fun pair => pair.2.slot.info = i + 1).map fst := by
    rw [filter_map]
    congr 1
    apply filter_congr
    intro pair isRela
    have stands := placed.stands pair (by simp [placedPairs, isRela])
    simp [placed.relaType isRela, stands.info_eq]
  rw [placed.headers, filter_cons, filter_append, filter_append, noParts, someRelas]
  simp [nullType, symtabType, strtabType, lastType, shtNull, shtRela, shtSymtab, shtStrtab]

section

variable (inFile : InFile builder payloads tables bytes)
  (matching : Matching builder.sections payloads)
  (payloadsHold : Forall₂ (fun part payload => Payload builder.cls builder.data
    builder.sections.length builder.allSymbols payload part.relocs) builder.sections payloads)
  {i : ℕ} (inside : i < builder.sections.length)
include inFile matching payloadsHold inside

/-- The relocations of a section are found through their own headers. -/
theorem Placed.relocationsOf_eq :
    relocationsOf builder.cls builder.data bytes (nullSymbol :: builder.viewSymbols)
        (builder.contents payloads tables).headers (i + 1) =
      some (builder.sections[i].relocs.map viewReloc) := by
  obtain ⟨payload, isPayload, selected⟩ := allRelaItems_filter matching inside wellFormed.few
  obtain ⟨inside', rfl⟩ := List.getElem?_eq_some_iff.mp isPayload
  have holds := payloadsHold.get inside inside'
  simp only [get_eq_getElem] at holds
  have items : (relas.filter fun pair => pair.2.slot.info = i + 1).map snd =
      Elf.relaItems builder.cls (builder.symtabIndex payloads)
        ((builder.sections[i], payloads[i]), i) := by
    rw [← selected, ← placed.relaItems, filter_map]
    rfl
  rw [relocationsOf, placed.relaHeaders wellFormed]
  rw [Elf.relaItems] at items
  by_cases empty : payloads[i] = []
  · rw [if_pos empty] at items
    rw [map_eq_nil_iff.mp items, holds.eq_nil_iff.1 empty]
    rfl
  · rw [if_neg empty] at items
    obtain ⟨⟨header, item⟩, rest, isPair, isItem, none⟩ := map_eq_cons_iff.mp items
    obtain rfl := map_eq_nil_iff.mp none
    obtain rfl : item = _ := isItem
    have isRela : (header, relaItem builder.cls (builder.symtabIndex payloads)
        ((builder.sections[i], payloads[i]), i)) ∈ relas := by
      apply mem_of_mem_filter
      rw [isPair]
      exact mem_singleton_self _
    have stands := placed.stands (header, relaItem builder.cls (builder.symtabIndex payloads)
      ((builder.sections[i], payloads[i]), i)) (by simp [placedPairs, isRela])
    have read := readRelocations_eq wellFormed holds
      (wellFormed.sections _ (getElem_mem inside)).relocs
      (inFile.hasAt_item stands rfl) (by rw [stands.slot]; rfl) stands.size
    rw [isPair]
    simp [read]

/-- A section is read back from its header. -/
theorem Placed.readSection_eq (inside' : i < parts.length) :
    readSection builder.cls builder.data bytes (builder.contents payloads tables).shstrtab.bytes
        (nullSymbol :: builder.viewSymbols) (builder.contents payloads tables).headers
        (parts[i].1, i + 1) =
      some (viewSection (builder.sections[i], i)) := by
  have relocations := placed.relocationsOf_eq wellFormed inFile matching payloadsHold inside
  have fits := wellFormed.sections _ (getElem_mem inside)
  have isItem : parts[i].2 = sectionItem builder.sections[i] := by
    have same := congrArg (·[i]?) placed.partItems
    simpa [ElfBuilder.sectionItems, inside, inside'] using same
  have stands := placed.stands parts[i] (by simp [placedPairs])
  rw [isItem] at stands
  have name : cString (builder.contents payloads tables).shstrtab.bytes parts[i].1.name =
      builder.sections[i].name := by
    have named := stands.named
    rw [sectionItem_name] at named
    exact named.cString_eq fits.name
  have contents : (if parts[i].1.shType = shtNobits then Contents.nobits parts[i].1.size
      else .bytes (block bytes parts[i].1)) =
      if builder.sections[i].nobits then .nobits builder.sections[i].nobitsSize.toNat
      else .bytes builder.sections[i].bytes := by
    rw [stands.shType_eq, sectionItem_shType]
    by_cases nobits : builder.sections[i].nobits = true
    · rw [if_pos (fits.nobits.mp nobits), if_pos nobits, stands.size, sectionItem, if_pos nobits]
    · have isContent : (sectionItem builder.sections[i]).content =
          some builder.sections[i].bytes := by
        rw [sectionItem, if_neg nobits]
      rw [if_neg fun type => nobits (fits.nobits.mpr type), if_neg nobits,
        block_eq stands isContent (inFile.hasAt_item stands isContent)]
  have slot : parts[i].1.shType = builder.sections[i].shType.toNat ∧
      parts[i].1.flags = builder.sections[i].shFlags.toNat ∧
      parts[i].1.align = builder.sections[i].align.toNat ∧
      parts[i].1.entsize = builder.sections[i].entsize.toNat := by
    rw [stands.slot, sectionItem]
    split <;> exact ⟨rfl, rfl, rfl, rfl⟩
  obtain ⟨type, flags, align, entsize⟩ := slot
  simp only [readSection, relocations, Option.bind_eq_bind, Option.bind_some, contents, name, flags,
    align, entsize, viewSection]
  rw [type]
  rfl

end

/-- The sections that are not bookkeeping are those of the builder. -/
theorem Placed.contentHeaders :
    (builder.contents payloads tables).headers.zipIdx.filter
        (isContent (1 + parts.length + relas.length + 2) (1 + parts.length + relas.length + 1)) =
      (parts.map fst).zipIdx 1 := by
  obtain ⟨nullType, symtabType, -, -⟩ := placed.tableTypes
  have keepsParts : ((parts.map fst).zipIdx 1).filter
      (isContent (1 + parts.length + relas.length + 2) (1 + parts.length + relas.length + 1)) =
      (parts.map fst).zipIdx 1 := by
    rw [filter_eq_self]
    intro item mem
    have below := snd_lt_of_mem_zipIdx mem
    rw [length_map] at below
    obtain ⟨pair, isPart, same⟩ := List.mem_map.mp (fst_mem_of_mem_zipIdx mem)
    obtain ⟨notNull, notSymtab, notRela⟩ := placed.partType wellFormed isPart
    rw [same] at notNull notSymtab notRela
    simp only [isContent, Bool.and_eq_true, bne_iff_ne, ne_eq]
    exact ⟨⟨⟨⟨notNull, notSymtab⟩, notRela⟩, by omega⟩, by omega⟩
  have dropsRelas : ((relas.map fst).zipIdx (1 + parts.length)).filter
      (isContent (1 + parts.length + relas.length + 2) (1 + parts.length + relas.length + 1)) =
      [] := by
    rw [filter_eq_nil_iff]
    intro item mem
    obtain ⟨pair, isRela, same⟩ := List.mem_map.mp (fst_mem_of_mem_zipIdx mem)
    have relaType := (placed.relaType isRela).1
    rw [same] at relaType
    simp [isContent, relaType]
  rw [placed.headers, zipIdx_cons, filter_cons, zipIdx_append, zipIdx_append,
    filter_append, filter_append, Nat.zero_add, length_map, length_map,
    keepsParts, dropsRelas]
  simp [isContent, nullType, symtabType]

theorem Placed.find_symtab :
    (builder.contents payloads tables).headers.find? (·.shType = shtSymtab) = some symtab := by
  obtain ⟨nullType, symtabType, -, -⟩ := placed.tableTypes
  have noParts : (parts.map fst).find? (·.shType = shtSymtab) = none := by
    rw [find?_eq_none]
    intro slot mem
    obtain ⟨pair, isPart, rfl⟩ := List.mem_map.mp mem
    simpa using (placed.partType wellFormed isPart).2.1
  have noRelas : (relas.map fst).find? (·.shType = shtSymtab) = none := by
    rw [find?_eq_none]
    intro slot mem
    obtain ⟨pair, isRela, rfl⟩ := List.mem_map.mp mem
    simp [(placed.relaType isRela).1, shtRela, shtSymtab]
  rw [placed.headers, find?_cons, find?_append, find?_append, noParts, noRelas]
  simp [nullType, symtabType, shtNull, shtSymtab]

omit wellFormed in
theorem Placed.getElem_tables :
    (builder.contents payloads tables).headers[1 + parts.length + relas.length + 1]? = some strtab ∧
      (builder.contents payloads tables).headers[1 + parts.length + relas.length + 2]? =
        some last := by
  have split : (builder.contents payloads tables).headers =
      (null :: (parts.map fst ++ relas.map fst)) ++ [symtab, strtab, last] := by
    rw [placed.headers]
    simp
  have front : (null :: (parts.map fst ++ relas.map fst)).length =
      1 + parts.length + relas.length := by
    simp only [length_cons, length_append, length_map]
    omega
  rw [split, ← front]
  constructor
  · rw [getElem?_append_right (by omega), Nat.add_sub_cancel_left]
    rfl
  · rw [getElem?_append_right (by omega), Nat.add_sub_cancel_left]
    rfl

end Sections

end Reading

section Files

/-- The section takes room in the file. -/
def Occupies (slot : HeaderSlot) : Prop := slot.shType ≠ shtNull ∧ slot.shType ≠ shtNobits

instance : DecidablePred Occupies := fun _ => inferInstanceAs (Decidable (_ ∧ _))

/-- The contents of sections are aligned, inside the file and apart from each other. -/
structure ElfFile.LaidOut (file : ElfFile) (bytes : List UInt8) : Prop where
  aligned : ∀ slot ∈ file.headers, Occupies slot → slot.align ≠ 0 → slot.offset % slot.align = 0
  inside : ∀ slot ∈ file.headers, Occupies slot → slot.offset + slot.size ≤ bytes.length
  apart : (file.headers.filter Occupies).Pairwise fun first second =>
    first.offset + first.size ≤ second.offset

/-- The local symbols are those before the index in `sh_info`. -/
def ElfFile.LocalsFirst (file : ElfFile) : Prop :=
  ∀ i symbol, file.symbols[i]? = some symbol → (symbol.binding = stbLocal ↔ i < file.firstGlobal)

variable {builder : ElfBuilder} {payloads : List (List UInt8)} {tables : SymbolTables}
  {null symtab strtab last : HeaderSlot} {parts relas : List (HeaderSlot × Item)}
  {bytes : List UInt8}

section

variable (wellFormed : builder.WellFormed)
  (placed : Placed builder payloads tables null parts relas symtab strtab last)
include wellFormed placed

theorem Placed.content_of_occupies
    (isPair : pair ∈ placedPairs builder payloads tables null parts relas symtab strtab last)
    (occupies : Occupies pair.1) : pair.2.content.isSome = true := by
  have stands := placed.stands pair isPair
  obtain ⟨notNull, notNobits⟩ := occupies
  rw [stands.shType_eq] at notNull notNobits
  simp only [placedPairs, mem_cons, mem_append, not_mem_nil, or_false] at isPair
  rcases isPair with rfl | isPart | isRela | rfl | rfl | rfl
  · exact absurd rfl notNull
  · have isItem : pair.2 ∈ builder.sectionItems := placed.partItems ▸ mem_map_of_mem isPart
    obtain ⟨part, inBuilder, same⟩ := List.mem_map.mp isItem
    rw [← same, sectionItem_shType] at notNobits
    have bits : ¬part.nobits = true := fun nobits =>
      notNobits ((wellFormed.sections part inBuilder).nobits.mp nobits)
    rw [← same, sectionItem, if_neg bits]
    rfl
  · have isItem : pair.2 ∈ builder.allRelaItems payloads :=
      placed.relaItems ▸ mem_map_of_mem isRela
    obtain ⟨item, -, isRela⟩ := mem_flatMap.mp isItem
    unfold Elf.relaItems at isRela
    split at isRela
    · simp at isRela
    · rw [mem_singleton.mp isRela]
      rfl
  · rfl
  · rfl
  · rfl

theorem Placed.laidOut (inFile : InFile builder payloads tables bytes) {file : ElfFile}
    (headers : file.headers = (builder.contents payloads tables).headers) :
    file.LaidOut bytes := by
  rw [placed.headers_eq] at headers
  refine ⟨?_, ?_, ?_⟩
  · intro slot mem occupies
    rw [headers] at mem
    obtain ⟨pair, isPair, rfl⟩ := List.mem_map.mp mem
    obtain ⟨content, isContent⟩ := Option.isSome_iff_exists.mp
      (placed.content_of_occupies wellFormed isPair occupies)
    exact ((placed.stands pair isPair).block content isContent).2.2
  · intro slot mem occupies
    rw [headers] at mem
    obtain ⟨pair, isPair, rfl⟩ := List.mem_map.mp mem
    exact ((placed.stands pair isPair).end_le
      (placed.content_of_occupies wellFormed isPair occupies)).trans inFile.length_le
  · rw [headers, filter_map, pairwise_map]
    refine (placed.apart.filter _).imp_of_mem ?_
    intro first second isFirst isSecond before
    obtain ⟨isFirst, firstOccupies⟩ := mem_filter.mp isFirst
    obtain ⟨isSecond, secondOccupies⟩ := mem_filter.mp isSecond
    exact before
      (placed.content_of_occupies wellFormed isFirst (by simpa using firstOccupies))
      (placed.content_of_occupies wellFormed isSecond (by simpa using secondOccupies))

end

theorem binding_of_isGlobal (symbol : ElfSymbol) :
    symbol.binding = stbLocal ↔ symbol.isGlobal = false := by
  unfold ElfSymbol.binding ElfSymbol.isGlobal
  cases symbol.weak <;> cases symbol.external <;> decide

theorem localsFirst (wellFormed : builder.WellFormed) {file : ElfFile}
    (symbols : file.symbols = nullSymbol :: builder.viewSymbols)
    (firstGlobal : file.firstGlobal = builder.firstGlobal) : file.LocalsFirst := by
  let front : List Symbol := nullSymbol ::
    ((range builder.sections.length).map viewSectionSymbol ++
      builder.localSymbols.map viewSymbol)
  let back : List Symbol := builder.globalSymbols.map viewSymbol ++
    (builder.commons.map viewCommon ++ builder.undefinedNames.map viewUndefined)
  have split : file.symbols = front ++ back := by
    rw [symbols, ElfBuilder.viewSymbols]
    simp [front, back]
  have count : front.length = file.firstGlobal := by
    rw [firstGlobal, wellFormed.firstGlobal_eq, ElfBuilder.symbolBase]
    simp only [front, length_cons, length_append, length_map, length_range]
    omega
  have locals : ∀ symbol ∈ front, symbol.binding = stbLocal := by
    intro symbol mem
    simp only [front, mem_cons, mem_append, mem_map] at mem
    rcases mem with rfl | ⟨i, -, rfl⟩ | ⟨added, isLocal, rfl⟩
    · rfl
    · rfl
    · have := (mem_filter.mp isLocal).2
      exact (binding_of_isGlobal added).mpr (by simpa using this)
  have globals : ∀ symbol ∈ back, symbol.binding ≠ stbLocal := by
    intro symbol mem
    simp only [back, mem_append, mem_map] at mem
    rcases mem with ⟨added, isGlobal, rfl⟩ | ⟨common, -, rfl⟩ | ⟨name, -, rfl⟩
    · have := (mem_filter.mp isGlobal).2
      exact fun isLocal => by simp [(binding_of_isGlobal added).mp isLocal] at this
    · exact Nat.one_ne_zero
    · exact Nat.one_ne_zero
  intro i symbol found
  rw [split] at found
  by_cases before : i < front.length
  · rw [getElem?_append_left before] at found
    exact iff_of_true (locals symbol (mem_of_getElem? found)) (count ▸ before)
  · rw [getElem?_append_right (not_lt.mp before)] at found
    exact iff_of_false (globals symbol (mem_of_getElem? found)) (count ▸ before)

theorem mapM_of_forall₂ {α β : Type} {f : α → Option β} {list : List α} {results : List β}
    (each : Forall₂ (fun element result => f element = some result) list results) :
    list.mapM f = some results := by
  induction each with
  | nil => rfl
  | cons first _ ih =>
    rw [mapM_cons, first, ih]
    rfl

theorem symEntsize_pos (cls : ElfClass) : 0 < cls.symEntsize := by
  cases cls <;> decide

/-- What a reader finds in a file that was written. -/
theorem readElf_write {bytes : List UInt8} (wellFormed : builder.WellFormed)
    (written : builder.write = .ok bytes) (fitsFile : builder.cls.Fits bytes.length) :
    ∃ file, readElf bytes = some file ∧
      file.machine = builder.machine.toNat ∧ file.flags = builder.eFlags.toNat ∧
      file.sections = builder.viewSections ∧
      file.symbols = nullSymbol :: builder.viewSymbols ∧
      file.LocalsFirst ∧ file.LaidOut bytes := by
  rw [ElfBuilder.write] at written
  cases passed : relaPayloads builder.cls builder.data builder.sections.length
      builder.definedTables builder.sections with
  | error message => simp [passed, bind, Except.bind] at written
  | ok result =>
    obtain ⟨payloads, tables⟩ := result
    simp only [passed, bind, Except.bind, pure, Except.pure, Except.ok.injEq] at written
    obtain ⟨lists, payloadsHold⟩ := wellFormed.tables passed
    have matching : Matching builder.sections payloads :=
      payloadsHold.imp fun _ _ holds => holds.eq_nil_iff
    obtain ⟨null, parts, relas, symtab, strtab, last, placed⟩ :=
      @exists_placed builder payloads tables wellFormed matching
    have inFile : InFile builder payloads tables bytes := written ▸ inFile_assemble placed.start_le
    obtain ⟨partCount, -, symtabIndex, headerCount⟩ := placed.lengths matching wellFormed
    have few := wellFormed.headers
    have headersFit : builder.cls.Fits (headersOffset builder payloads tables) :=
      lt_of_le_of_lt ((Nat.le_add_right _ _).trans inFile.headers.le) fitsFile
    have indices : 1 + parts.length + relas.length + 3 = builder.headerCount := by
      rw [← headerCount, placed.headers]
      simp only [length_cons, length_append, length_map, length_nil]
      omega
    have lastIndex : (builder.symtabIndex payloads + 2) % 2 ^ 32 =
        1 + parts.length + relas.length + 2 := by
      rw [symtabIndex, mod_eq_of_lt (by omega)]
    have link : symtab.link = 1 + parts.length + relas.length + 1 := by
      rw [placed.standsSymtab.slot]
      simp only [ElfBuilder.symtabItem, symtabSlot, symtabIndex]
      exact mod_eq_of_lt (by omega)
    have header := inFile.readFileHeader headersFit (by omega) (by omega)
    rw [lastIndex] at header
    have headers := placed.readHeaders wellFormed inFile fitsFile
    obtain ⟨atStrtab, atLast⟩ := placed.getElem_tables
    have entries := inFile.hasAt_item placed.standsSymtab rfl
    have strings := block_eq placed.standsStrtab rfl (inFile.hasAt_item placed.standsStrtab rfl)
    have names := block_eq placed.standsLast rfl (inFile.hasAt_item placed.standsLast rfl)
    obtain ⟨readEntries, symbols⟩ := readSymbols wellFormed lists entries
    have entrySize : symtab.entsize = builder.cls.symEntsize := by
      rw [placed.standsSymtab.slot]
      rfl
    have entryCount : symtab.size / builder.cls.symEntsize = tables.symtab.length := by
      have size := placed.standsSymtab.size
      simp only [ElfBuilder.symtabItem] at size
      rw [size, length_flatMap_const fun entry _ => length_writeSymbol entry,
        Nat.mul_div_cancel _ (symEntsize_pos _)]
    have sections : ((parts.map fst).zipIdx 1).mapM (readSection builder.cls builder.data
        bytes (builder.contents payloads tables).shstrtab.bytes
        (nullSymbol :: builder.viewSymbols) (builder.contents payloads tables).headers) =
        some builder.viewSections := by
      apply mapM_of_forall₂
      rw [ElfBuilder.viewSections, forall₂_iff_get]
      refine ⟨by simp [partCount], ?_⟩
      intro i inParts inSections
      have insideParts : i < parts.length := by simpa using inParts
      have insideSections : i < builder.sections.length := by simpa using inSections
      have read := placed.readSection_eq wellFormed inFile matching payloadsHold insideSections
        insideParts
      simpa [Nat.add_comm] using read
    let file : ElfFile :=
      { machine := builder.machine.toNat
        flags := builder.eFlags.toNat
        sections := builder.viewSections
        symbols := nullSymbol :: builder.viewSymbols
        firstGlobal := symtab.info
        headers := (builder.contents payloads tables).headers }
    have isFirstGlobal : file.firstGlobal = builder.firstGlobal := by
      change symtab.info = _
      rw [placed.standsSymtab.info_eq]
      rfl
    refine ⟨file, ?_, rfl, rfl, rfl, rfl, localsFirst wellFormed rfl isFirstGlobal,
      placed.laidOut wellFormed inFile rfl⟩
    simp only [readElf, inFile.readIdent, header, headers, atLast,
      placed.find_symtab wellFormed, link, atStrtab, entryCount, entrySize, readEntries, strings,
      names, symbols, placed.contentHeaders wellFormed, sections, Option.bind_eq_bind,
      Option.bind_some, pure, file]

/-- A section with a relocation against a symbol that nothing defines, and a function in it. -/
def callBuilder : ElfBuilder :=
  { machine := 62
    sections := [{ name := text ".text", shFlags := 6, align := 16, bytes := [0xE8, 0, 0, 0, 0, 0xC3]
                   relocs := [{ offset := 1, symbol := text "f", type := 4, addend := -4 }] }]
    symbols := [{ name := text "g", sectionId := 0, size := 6, type := 2, external := true }] }

theorem callBuilder_read : ∃ bytes file, callBuilder.write = .ok bytes ∧
    readElf bytes = some file ∧ file.sections = callBuilder.viewSections ∧
    file.symbols = nullSymbol :: callBuilder.viewSymbols := by
  have wellFormed : callBuilder.WellFormed := by
    refine ⟨by decide, by decide, ?_, ?_, ?_, by decide, by decide, by decide⟩
    · intro part mem
      rw [mem_singleton.mp mem]
      refine ⟨by decide, by decide, by decide, by decide, by decide, by decide, by decide,
        by decide, ?_⟩
      intro reloc mem
      rw [mem_singleton.mp mem]
      exact ⟨by decide, by decide, nofun, nofun⟩
    · intro symbol mem
      rw [mem_singleton.mp mem]
      exact ⟨by decide, by decide, by decide, by decide, by decide, nofun⟩
    · intro common mem
      simp [callBuilder] at mem
  obtain ⟨bytes, written, small⟩ := @exists_short _ callBuilder.write (256 ^ 8)
    (by set_option maxRecDepth 4096 in decide)
  obtain ⟨file, read, -, -, sections, symbols, -⟩ := readElf_write wellFormed written small
  exact ⟨bytes, file, written, read, sections, symbols⟩

/-- The names are distinct and without zeros, and the values of the symbols fit their fields. -/
def ElfBuilder.Ordinary (builder : ElfBuilder) : Prop :=
  builder.sections.length < 65280 ∧ builder.definedNames.Nodup ∧
    (∀ name ∈ builder.definedNames, 0 ∉ name) ∧
    (∀ part ∈ builder.sections, 0 ∉ part.name) ∧
    ∀ symbol ∈ builder.symbols, builder.cls.Fits symbol.value.toNat ∧
      builder.cls.Fits symbol.size.toNat ∧ symbol.type.toNat < 16 ∧
      symbol.sectionId < builder.sections.length

instance (builder : ElfBuilder) : Decidable builder.Ordinary :=
  inferInstanceAs (Decidable (_ ∧ _))

/-- Something of the builder that a reader of the bytes can find. -/
def Readable {α : Type} (view : ElfBuilder → α) : Prop :=
  ∃ read : List UInt8 → α, ∀ (builder : ElfBuilder) (bytes : List UInt8), builder.Ordinary →
    builder.cls.Fits bytes.length → builder.write = .ok bytes → read bytes = view builder

theorem not_readable {α : Type} {view : ElfBuilder → α} {builder builder' : ElfBuilder}
    {bytes : List UInt8} (ordinary : builder.Ordinary) (ordinary' : builder'.Ordinary)
    (fits : builder.cls.Fits bytes.length) (fits' : builder'.cls.Fits bytes.length)
    (written : builder.write = .ok bytes) (written' : builder'.write = .ok bytes)
    (differ : view builder ≠ view builder') : ¬Readable view := by
  rintro ⟨read, reads⟩
  have first := reads builder bytes ordinary fits written
  have second := reads builder' bytes ordinary' fits' written'
  exact differ (first.symm.trans second)

/-- An object with one local symbol. -/
def localBuilder (hidden : Bool) : ElfBuilder :=
  { sections := [{ name := text ".data", bytes := [1] }]
    symbols := [{ name := text "x", sectionId := 0, size := 1, type := 1, hidden := hidden }] }

/-- An object with one empty section of the type without room in the file. -/
def emptyBuilder (nobits : Bool) : ElfBuilder :=
  { sections := [{ name := text ".bss", shType := 8, nobits := nobits }] }

/-- The visibility of a local symbol is not in the file, and neither is whether a section has
contents but in its type. -/
theorem visibility_and_nobits_lost :
    ¬Readable ElfBuilder.viewSymbols ∧ ¬Readable ElfBuilder.viewSections := by
  obtain ⟨bytes, visible, small⟩ := @exists_short _ (localBuilder false).write (256 ^ 8)
    (by set_option maxRecDepth 4096 in decide)
  obtain ⟨bytes', empty, small'⟩ := @exists_short _ (emptyBuilder false).write (256 ^ 8)
    (by set_option maxRecDepth 4096 in decide)
  have hidden : (localBuilder true).write = (localBuilder false).write := rfl
  have same : (emptyBuilder true).write = (emptyBuilder false).write := by
    set_option maxRecDepth 4096 in decide
  constructor
  · exact @not_readable _ _ (localBuilder false) (localBuilder true) bytes (by decide) (by decide)
      small small visible (hidden.trans visible) (by decide)
  · exact @not_readable _ _ (emptyBuilder false) (emptyBuilder true) bytes' (by decide) (by decide)
      small' small' empty (same.trans empty) (by decide)

end Files

end Aburi.Backend.Elf
