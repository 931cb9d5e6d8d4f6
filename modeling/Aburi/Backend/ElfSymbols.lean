import Aburi.Backend.ElfRecords

/-!
# Reading the symbols and relocations of an ELF object

The entries of the symbol table, resolved through the string table, are the
symbols of the builder, and a relocation whose index refers to one of them has
the target that the builder gave it.
-/

namespace Aburi.Backend.Elf

open Aburi.Lib List Nat

/-- The symbol that a reader finds for what was added. -/
def viewAdded (symbol : Added) : Symbol :=
  { name := symbol.1
    binding := symbol.2.info / 16
    type := symbol.2.info % 16
    visibility := symbol.2.other % 4
    place := placeOf symbol.2.shndx
    value := symbol.2.value
    size := symbol.2.size }

/-- The first entry of every symbol table. -/
def nullSymbol : Symbol :=
  { name := []
    binding := 0
    type := 0
    visibility := 0
    place := .undefined
    value := 0
    size := 0 }

section Views

theorem info_halves (binding : ℕ) {type : ℕ} (fits : type < 16) :
    (binding <<< 4 ||| type) / 16 = binding ∧ (binding <<< 4 ||| type) % 16 = type :=
  @pack_div_mod binding type 4 fits

theorem viewAdded_section {contentCount i : ℕ} (below : i < contentCount)
    (few : contentCount < 65280) :
    viewAdded ([], sectionEntry i) = viewSectionSymbol i := by
  have small : (i + 1) % 2 ^ 16 = i + 1 := mod_eq_of_lt (by omega)
  have place : placeOf (i + 1) = .inSection (i + 1) := by
    rw [placeOf, if_neg (by omega), if_neg (by rw [shnCommon]; omega)]
  obtain ⟨high, low⟩ := info_halves stbLocal (show sttSection < 16 by decide)
  simp only [viewAdded, sectionEntry, small, place, viewSectionSymbol, high, low, zero_mod]

variable {cls : ElfClass} {contentCount : ℕ} {symbol : ElfSymbol}

section

variable (fits : symbol.Fits cls contentCount) (few : contentCount < 65280)
include fits few

theorem placeOf_shndx :
    placeOf symbol.shndx =
      if symbol.sectionId < 0 then .undefined else .inSection (symbol.sectionId + 1).toNat := by
  have below := fits.place
  rw [ElfSymbol.shndx]
  split
  · rfl
  · have small : (symbol.sectionId + 1).toNat % 2 ^ 16 = (symbol.sectionId + 1).toNat :=
      mod_eq_of_lt (by omega)
    rw [small, placeOf, if_neg (by omega), if_neg (by rw [shnCommon]; omega)]

theorem viewAdded_local (isLocal : symbol.isGlobal = false) :
    viewAdded (symbol.name, localEntry symbol) = viewSymbol symbol := by
  obtain ⟨high, low⟩ := info_halves stbLocal fits.type
  obtain ⟨notExternal, notWeak⟩ := Bool.or_eq_false_iff.mp isLocal
  have notHidden : symbol.hidden = false := by
    by_contra hidden
    have := fits.hidden (by simpa using hidden)
    rw [isLocal] at this
    exact Bool.false_ne_true this
  simp only [viewAdded, localEntry, viewSymbol, high, low, placeOf_shndx fits few,
    ElfSymbol.binding, notWeak, notExternal, notHidden, Bool.false_eq_true, if_false,
    zero_mod]

theorem viewAdded_global (isGlobal : symbol.isGlobal = true) :
    viewAdded (symbol.name, globalEntry symbol) = viewSymbol symbol := by
  obtain ⟨high, low⟩ := info_halves (if symbol.weak then stbWeak else stbGlobal) fits.type
  have visibility : (if symbol.hidden = true then stvHidden else 0) % 4 =
      if symbol.hidden = true then stvHidden else 0 := by
    split <;> rfl
  have binding : (if symbol.weak = true then stbWeak else stbGlobal) = symbol.binding := by
    rw [ElfSymbol.binding]
    split
    · rfl
    · rename_i notWeak
      rw [if_pos]
      simpa [ElfSymbol.isGlobal, notWeak] using isGlobal
  rw [binding] at high low
  simp only [viewAdded, globalEntry, viewSymbol, binding, high, low, placeOf_shndx fits few,
    visibility]

end

theorem viewAdded_common (common : ElfCommon) :
    viewAdded (common.name, commonEntry common) = viewCommon common := by
  obtain ⟨high, low⟩ := info_halves stbGlobal (show sttObject < 16 by decide)
  have place : placeOf shnCommon = .common := by decide
  simp only [viewAdded, commonEntry, viewCommon, high, low, place, zero_mod]

theorem viewAdded_undefined (name : Name) :
    viewAdded (name, undefinedEntry) = viewUndefined name := by
  obtain ⟨high, low⟩ := info_halves stbGlobal (show sttNotype < 16 by decide)
  have place : placeOf 0 = .undefined := by decide
  simp only [viewAdded, undefinedEntry, viewUndefined, high, low, place, zero_mod]

theorem ElfBuilder.WellFormed.few {builder : ElfBuilder} (wellFormed : builder.WellFormed) :
    builder.sections.length < 65280 := by
  have := wellFormed.headers
  rw [ElfBuilder.headerCount] at this
  omega

/-- What a reader finds for all symbols that were added. -/
theorem ElfBuilder.WellFormed.viewAll {builder : ElfBuilder} (wellFormed : builder.WellFormed) :
    builder.allSymbols.map viewAdded = nullSymbol :: builder.viewSymbols := by
  have few := wellFormed.few
  have parts : ((range builder.sections.length).map fun i =>
      (([] : Name), sectionEntry i)).map viewAdded =
      (range builder.sections.length).map viewSectionSymbol := by
    rw [map_map]
    apply map_congr_left
    intro i mem
    exact viewAdded_section (mem_range.mp mem) few
  have locals : (builder.localSymbols.map fun symbol =>
      (symbol.name, localEntry symbol)).map viewAdded = builder.localSymbols.map viewSymbol := by
    rw [map_map]
    apply map_congr_left
    intro symbol mem
    obtain ⟨mem, isLocal⟩ := mem_filter.mp mem
    exact viewAdded_local (wellFormed.symbols symbol mem) few (by simpa using isLocal)
  have globals : (builder.globalSymbols.map fun symbol =>
      (symbol.name, globalEntry symbol)).map viewAdded = builder.globalSymbols.map viewSymbol := by
    rw [map_map]
    apply map_congr_left
    intro symbol mem
    obtain ⟨mem, isGlobal⟩ := mem_filter.mp mem
    exact viewAdded_global (wellFormed.symbols symbol mem) few isGlobal
  simp only [allSymbols, unnamedSymbols, namedSymbols, map_append, map_cons, parts,
    locals, globals, viewSymbols, cons_append, append_assoc]
  simp only [map_map, Function.comp_def, viewAdded_common, viewAdded_undefined]
  rfl

end Views

section Entries

variable {builder : ElfBuilder} {tables : SymbolTables}

theorem StringTable.Has.cString_eq {table : StringTable} {offset : ℕ} {name : Name}
    (has : table.Has offset name) (noZero : 0 ∉ name) : cString table.bytes offset = name :=
  cString_of_hasAt has noZero

theorem ElfBuilder.WellFormed.noZero (wellFormed : builder.WellFormed) :
    ∀ symbol ∈ builder.allSymbols, 0 ∉ symbol.1 := by
  intro symbol mem
  simp only [allSymbols, unnamedSymbols, namedSymbols, mem_append, mem_cons, mem_map] at mem
  rcases mem with ((rfl | ⟨i, -, rfl⟩) | (⟨added, isAdded, rfl⟩ | ⟨added, isAdded, rfl⟩) |
    ⟨common, isCommon, rfl⟩) | ⟨name, isName, rfl⟩
  · simp
  · simp
  · exact (wellFormed.symbols added (mem_of_mem_filter isAdded)).name
  · exact (wellFormed.symbols added (mem_of_mem_filter isAdded)).name
  · exact (wellFormed.commons common isCommon).name
  · have used := mem_filter.mp (mem_eraseDups.mp isName)
    obtain ⟨reloc, isReloc, rfl⟩ := List.mem_map.mp used.1
    obtain ⟨part, isPart, inPart⟩ := mem_flatMap.mp isReloc
    exact ((wellFormed.sections part isPart).relocs reloc inPart).symbol

theorem fits_of_lt32 (cls : ElfClass) {value : ℕ} (small : value < 2 ^ 32) : cls.Fits value := by
  cases cls
  · exact small
  · exact lt_trans small (by decide)

theorem shndx_lt (symbol : ElfSymbol) : symbol.shndx < 256 ^ 2 := by
  rw [ElfSymbol.shndx]
  split
  · decide
  · exact mod_lt _ (by decide)

theorem pack_info_lt {binding type : ℕ} (bindingFits : binding < 2 ^ 4) (fits : type < 16) :
    binding <<< 4 ||| type < 256 ^ 1 :=
  @pack_lt binding type 4 4 fits bindingFits

/-- The entries but for their names fit their fields. -/
theorem ElfBuilder.WellFormed.entriesFit (wellFormed : builder.WellFormed) :
    ∀ symbol ∈ builder.allSymbols, ∀ name < 256 ^ 4,
      SymtabEntry.Fits builder.cls { symbol.2 with name := name } := by
  intro symbol mem name nameFits
  have zero : builder.cls.Fits 0 := fits_of_lt32 _ (by decide)
  have zeroByte : 0 < 256 ^ 1 := by decide
  have zeroHalf : 0 < 256 ^ 2 := by decide
  simp only [allSymbols, unnamedSymbols, namedSymbols, mem_append, mem_cons, mem_map] at mem
  rcases mem with ((rfl | ⟨i, -, rfl⟩) | (⟨added, isAdded, rfl⟩ | ⟨added, isAdded, rfl⟩) |
    ⟨common, isCommon, rfl⟩) | ⟨name, isName, rfl⟩
  · exact ⟨nameFits, zeroByte, zeroByte, zeroHalf, zero, zero⟩
  · exact ⟨nameFits, @pack_info_lt stbLocal sttSection (by decide) (by decide),
      zeroByte, mod_lt _ (by decide), zero, zero⟩
  · have fits := wellFormed.symbols added (mem_of_mem_filter isAdded)
    exact ⟨nameFits, pack_info_lt (by decide) fits.type, zeroByte, shndx_lt added, fits.value,
      fits.size⟩
  · have fits := wellFormed.symbols added (mem_of_mem_filter isAdded)
    refine ⟨nameFits, pack_info_lt ?_ fits.type, ?_, shndx_lt added, fits.value, fits.size⟩
    · split <;> decide
    · simp only [globalEntry]
      split <;> decide
  · have fits := wellFormed.commons common isCommon
    have reserved : shnCommon < 256 ^ 2 := by decide
    exact ⟨nameFits, @pack_info_lt stbGlobal sttObject (by decide) (by decide),
      zeroByte, reserved, fits_of_lt32 _ common.align.toNat_lt, fits.size⟩
  · exact ⟨nameFits, @pack_info_lt stbGlobal sttNotype (by decide) (by decide),
      zeroByte, zeroHalf, zero, zero⟩

section

variable (wellFormed : builder.WellFormed)
  (lists : tables.Lists builder.symbolBase builder.allSymbols)
include wellFormed lists

theorem SymbolTables.Lists.strtab_lt :
    tables.strtab.bytes.length < 2 ^ 32 :=
  lt_of_le_of_lt lists.room wellFormed.small.1

theorem symtab_fits :
    ∀ entry ∈ tables.symtab, entry.Fits builder.cls := by
  intro entry mem
  have short := lists.strtab_lt wellFormed
  obtain ⟨i, inside, rfl⟩ := getElem_of_mem mem
  have inside' : i < builder.allSymbols.length := lists.entries.length_eq ▸ inside
  have stands := lists.entries.get inside inside'
  simp only [get_eq_getElem] at stands
  have inTable := stands.1.le
  rw [length_append, length_singleton] at inTable
  have fits := wellFormed.entriesFit builder.allSymbols[i] (getElem_mem inside')
    tables.symtab[i].name (by omega)
  rw [← stands.2] at fits
  exact fits

end

theorem resolveSymbol_eq {table : StringTable} {entries : List SymtabEntry} {added : List Added}
    (stands : Forall₂ (fun entry symbol => table.Has entry.name symbol.1 ∧
      entry = { symbol.2 with name := entry.name }) entries added)
    (noZero : ∀ symbol ∈ added, 0 ∉ symbol.1) :
    entries.map (resolveSymbol table.bytes) = added.map viewAdded := by
  induction stands with
  | nil => rfl
  | cons stands _ ih =>
    rw [map_cons, map_cons,
      ih fun symbol mem => noZero symbol (mem_cons_of_mem _ mem)]
    congr 1
    rw [resolveSymbol, stands.1.cString_eq (noZero _ (mem_cons_self ..)), stands.2]
    rfl

theorem readSymbols (wellFormed : builder.WellFormed)
    (lists : tables.Lists builder.symbolBase builder.allSymbols) {bytes : List UInt8} {offset : ℕ}
    (has : HasAt bytes offset (tables.symtab.flatMap (writeSymbol builder.cls builder.data))) :
    readTable (readSymbol builder.cls builder.data bytes) builder.cls.symEntsize offset
        tables.symtab.length = some tables.symtab ∧
      tables.symtab.map (resolveSymbol tables.strtab.bytes) =
        nullSymbol :: builder.viewSymbols := by
  constructor
  · have read := readTable_of_hasAt id (fun entry _ => length_writeSymbol entry) has
      (fun entry mem _ hasEntry =>
        readSymbol_of_hasAt (symtab_fits wellFormed lists entry mem) hasEntry)
    rwa [map_id] at read
  · rw [← wellFormed.viewAll]
    exact resolveSymbol_eq lists.entries wellFormed.noZero

end Entries

section Relocations

variable {builder : ElfBuilder}

theorem allSymbols_section {i : ℕ} (below : i < builder.sections.length) :
    builder.allSymbols[i + 1]? = some ([], sectionEntry i) := by
  rw [ElfBuilder.allSymbols, ElfBuilder.unnamedSymbols, cons_append, cons_append,
    getElem?_cons_succ, append_assoc, getElem?_append_left (by simpa using below)]
  simp [below]

section

variable (wellFormed : builder.WellFormed) {index : ℕ} {reloc : ElfReloc}
  (resolves : Resolves builder.sections.length builder.allSymbols index reloc)
include wellFormed resolves

theorem resolveRela_eq :
    resolveRela (nullSymbol :: builder.viewSymbols)
      ⟨reloc.offset.toNat, index, reloc.type.toNat, reloc.addend.toInt⟩ =
      some (viewReloc reloc) := by
  rw [← wellFormed.viewAll, resolveRela, viewReloc]
  rw [Resolves] at resolves
  split at resolves
  case isTrue named =>
    obtain ⟨entry, found⟩ := resolves
    simp [getElem?_map, found, targetOf, viewAdded, named]
  case isFalse unnamed =>
    obtain ⟨nonneg, below, rfl⟩ := resolves
    have inside : reloc.sectionId.toNat < builder.sections.length := by omega
    have found := allSymbols_section inside
    have number : (reloc.sectionId + 1).toNat = reloc.sectionId.toNat + 1 := by omega
    simp [getElem?_map, found, viewAdded_section inside wellFormed.few, targetOf,
      viewSectionSymbol, number, not_not.mp unnamed]

theorem FitsIndex_of_resolves :
    builder.cls.FitsIndex index := by
  have inside : index < builder.allSymbols.length := by
    rw [Resolves] at resolves
    split at resolves
    case isTrue =>
      obtain ⟨entry, found⟩ := resolves
      exact (List.getElem?_eq_some_iff.mp found).1
    case isFalse =>
      obtain ⟨nonneg, below, rfl⟩ := resolves
      have := builder.length_allSymbols
      rw [ElfBuilder.symbolCount] at this
      omega
  rw [builder.length_allSymbols] at inside
  exact lt_trans inside wellFormed.symbolCount

end

theorem mapM_eq_some {α β : Type} {f : α → Option β} {g : α → β} {list : List α}
    (each : ∀ element ∈ list, f element = some (g element)) :
    list.mapM f = some (list.map g) := by
  induction list with
  | nil => rfl
  | cons element list ih =>
    rw [mapM_cons, each element (mem_cons_self ..),
      ih fun element mem => each element (mem_cons_of_mem _ mem)]
    rfl

theorem relaEntsize_pos (cls : ElfClass) : 0 < cls.relaEntsize := by
  cases cls <;> decide

/-- The relocations of a section are read back through the header of their own. -/
theorem readRelocations_eq (wellFormed : builder.WellFormed) {relocs : List ElfReloc}
    {payload : List UInt8}
    (holds : Payload builder.cls builder.data builder.sections.length builder.allSymbols payload
      relocs)
    (fits : ∀ reloc ∈ relocs, reloc.Fits builder.cls) {bytes : List UInt8} {slot : HeaderSlot}
    (has : HasAt bytes slot.offset payload) (entsize : slot.entsize = builder.cls.relaEntsize)
    (size : slot.size = payload.length) :
    readRelocations builder.cls builder.data bytes (nullSymbol :: builder.viewSymbols) slot =
      some (relocs.map viewReloc) := by
  obtain ⟨items, rfl, rfl, resolves⟩ := holds
  have count : slot.size / slot.entsize = items.length := by
    rw [size, entsize, relocBytes, length_flatMap_const fun item _ => length_writeReloc item.1 item.2,
      Nat.mul_div_cancel _ (relaEntsize_pos _)]
  have read := readTable_of_hasAt
    (fun item : ℕ × ElfReloc =>
      (⟨item.2.offset.toNat, item.1, item.2.type.toNat, item.2.addend.toInt⟩ : Rela))
    (fun item _ => length_writeReloc item.1 item.2) has (fun item mem at' hasItem =>
      readRela_of_hasAt (fits item.2 (mem_map_of_mem mem))
        (FitsIndex_of_resolves wellFormed (resolves item mem)) hasItem)
  rw [readRelocations, count, entsize, read]
  simp only [Option.bind_eq_bind, Option.bind_some, mapM_map, map_map]
  exact mapM_eq_some fun item mem => resolveRela_eq wellFormed (resolves item mem)

end Relocations

end Aburi.Backend.Elf
