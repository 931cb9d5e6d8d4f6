import Aburi.Backend.ElfReader
import Mathlib.Data.List.Forall2

/-!
# The symbols of an ELF object

String tables only grow, so that an offset once given keeps its text.  The
symbol table is described by the list of the names and entries that were added
to it; relocations refer to this list, and the names that only they know are
added to it in the order in which they occur.
-/

namespace Aburi.Backend.Elf

open Aburi.Lib Prod Function Nat
open List (Forall₂ append_assoc range)
open List hiding beq_eq_decide

section StringTables

/-- The text stands in the table at the offset, with the zero that ends it. -/
def StringTable.Has (table : StringTable) (offset : ℕ) (text : Name) : Prop :=
  HasAt table.bytes offset (text ++ [0])

structure StringTable.Sound (table : StringTable) : Prop where
  empty : table.Has 0 []
  found : ∀ text offset, table.offsets.lookup text = some offset → table.Has offset text

theorem StringTable.sound_empty : ({} : StringTable).Sound where
  empty := ⟨[], [], rfl, rfl⟩
  found := by
    intro text offset found
    simp at found

variable {table : StringTable} (text : Name)

theorem StringTable.intern_grows : table.bytes <+: (table.intern text).2.bytes := by
  unfold StringTable.intern
  split
  · exact prefix_refl _
  · split
    · exact prefix_refl _
    · exact prefix_append _ _

theorem StringTable.length_intern :
    (table.intern text).2.bytes.length ≤ table.bytes.length + (text.length + 1) := by
  unfold StringTable.intern
  split
  · exact Nat.le_add_right _ _
  · split
    · exact Nat.le_add_right _ _
    · simp

theorem StringTable.Sound.intern (sound : table.Sound) (small : table.bytes.length < 2 ^ 32) :
    (table.intern text).2.Sound ∧ (table.intern text).2.Has (table.intern text).1 text := by
  unfold StringTable.intern
  split
  case isTrue empty =>
    rw [empty]
    exact ⟨sound, sound.empty⟩
  case isFalse nonempty =>
    split
    case h_1 offset found => exact ⟨sound, sound.found text offset found⟩
    case h_2 =>
      have added := hasAt_end table.bytes (text ++ [0])
      rw [mod_eq_of_lt small]
      refine ⟨⟨sound.empty.extend _, ?_⟩, added⟩
      intro other offset found
      rw [lookup_cons] at found
      split at found
      case h_1 same =>
        rw [eq_of_beq same, ← Option.some.inj found]
        exact added
      case h_2 => exact (sound.found other offset found).extend _

end StringTables

section Symbols

/-- A symbol that was added: its name, and its entry but for the offset of the name. -/
abbrev Added := Name × SymtabEntry

theorem nameRoom_append (names names' : List Name) :
    nameRoom (names ++ names') = nameRoom names + nameRoom names' := by
  simp [nameRoom]

/-- The tables hold what was added; the entries before `base` are not known by name. -/
structure SymbolTables.Lists (base : ℕ) (tables : SymbolTables) (added : List Added) : Prop where
  strings : tables.strtab.Sound
  entries : Forall₂ (fun entry symbol => tables.strtab.Has entry.name symbol.1 ∧
    entry = { symbol.2 with name := entry.name }) tables.symtab added
  base_le : base ≤ added.length
  known : ∀ name index, tables.byName.lookup name = some index →
    ∃ entry, added[index]? = some (name, entry)
  unknown : ∀ name, tables.byName.lookup name = none ↔ name ∉ (added.drop base).map fst
  room : tables.strtab.bytes.length ≤ 1 + nameRoom ((added.drop base).map fst)

/-- What was added fits the widths of offsets and indices. -/
def Small (base : ℕ) (added : List Added) : Prop :=
  1 + nameRoom ((added.drop base).map fst) < 2 ^ 32 ∧ added.length < 2 ^ 32

theorem Small.of_append {base : ℕ} {added more : List Added} (small : Small base (added ++ more)) :
    Small base added := by
  obtain ⟨names, count⟩ := small
  constructor
  · rw [drop_append, map_append, nameRoom_append] at names
    omega
  · rw [length_append] at count
    omega

variable {base : ℕ} {tables : SymbolTables} {added : List Added}

theorem SymbolTables.Lists.addNamed (lists : tables.Lists base added) (small : Small base added)
    (name : Name) (entry : SymtabEntry) :
    (tables.addNamed name entry).Lists base (added ++ [(name, entry)]) := by
  have lengths : tables.symtab.length = added.length := lists.entries.length_eq
  have short : tables.strtab.bytes.length < 2 ^ 32 := lt_of_le_of_lt lists.room small.1
  obtain ⟨sound, has⟩ := lists.strings.intern name short
  have grows := @StringTable.intern_grows tables.strtab name
  have newName : ((added ++ [(name, entry)]).drop base).map fst =
      (added.drop base).map fst ++ [name] := by
    rw [drop_append_of_le_length lists.base_le, map_append]
    rfl
  refine ⟨sound, ?_, ?_, ?_, ?_, ?_⟩
  · apply rel_append
    · exact lists.entries.imp fun _ _ stands => ⟨stands.1.grow grows, stands.2⟩
    · exact .cons ⟨has, rfl⟩ .nil
  · rw [length_append]
    exact lists.base_le.trans (Nat.le_add_right _ _)
  · intro other index found
    rw [SymbolTables.addNamed, lookup_cons] at found
    split at found
    case h_1 same =>
      rw [mod_eq_of_lt (lengths ▸ small.2)] at found
      refine ⟨entry, ?_⟩
      rw [← Option.some.inj found, lengths, eq_of_beq same]
      simp
    case h_2 =>
      obtain ⟨entry', at'⟩ := lists.known other index found
      exact ⟨entry', getElem?_append_left (List.getElem?_eq_some_iff.mp at').1 ▸ at'⟩
  · intro other
    rw [newName, SymbolTables.addNamed, lookup_cons]
    split
    case h_1 same => simp [eq_of_beq same]
    case h_2 different =>
      rw [lists.unknown other]
      simp only [beq_eq_false_iff_ne, ne_eq] at different
      simp [different]
  · rw [newName, nameRoom_append]
    have grown := @StringTable.length_intern tables.strtab name
    have room := lists.room
    simp only [SymbolTables.addNamed, nameRoom, map_cons, map_nil, sum_cons,
      sum_nil] at grown room ⊢
    omega

theorem SymbolTables.Lists.addAll {more : List Added} (lists : tables.Lists base added)
    (small : Small base (added ++ more)) :
    (tables.addAll more).Lists base (added ++ more) := by
  induction more generalizing tables added with
  | nil =>
    rw [append_nil]
    exact lists
  | cons symbol more ih =>
    have split : added ++ symbol :: more = added ++ [symbol] ++ more := by simp
    rw [split] at small ⊢
    have added' := lists.addNamed small.of_append.of_append symbol.1 symbol.2
    exact ih added' small

end Symbols

section Relocations

/-- The names that the relocations add to the known ones, in the order of their first use. -/
def undefinedAfter : List Name → List ElfReloc → List Name
  | _, [] => []
  | known, reloc :: relocs =>
    if reloc.symbol = [] ∨ reloc.symbol ∈ known then undefinedAfter known relocs
    else reloc.symbol :: undefinedAfter (known ++ [reloc.symbol]) relocs

attribute [local grind =] undefinedAfter

theorem undefinedAfter_append (known : List Name) (relocs relocs' : List ElfReloc) :
    undefinedAfter known (relocs ++ relocs') =
      undefinedAfter known relocs ++
        undefinedAfter (known ++ undefinedAfter known relocs) relocs' := by
  induction relocs generalizing known with
  | nil => simp [undefinedAfter]
  | cons reloc relocs ih =>
    simp only [List.cons_append, undefinedAfter]
    split
    · exact ih known
    · rw [ih]
      simp

theorem undefinedAfter_eq_eraseDups (known : List Name) (relocs : List ElfReloc) :
    undefinedAfter known relocs =
      ((relocs.map (·.symbol)).filter fun name => name ≠ [] ∧ name ∉ known).eraseDups := by
  induction relocs generalizing known with
  | nil => rfl
  | cons reloc relocs ih =>
    rw [undefinedAfter, map_cons, filter_cons]
    by_cases old : reloc.symbol = [] ∨ reloc.symbol ∈ known
    · rw [if_pos old, if_neg, ih]
      simp only [ne_eq, decide_eq_true_eq]
      tauto
    · rw [if_neg old, if_pos, ih, eraseDups_cons, List.filter_filter]
      · congr 3
        funext name
        simp only [mem_append, mem_singleton, ne_eq, not_or, beq_eq_decide,
          ← decide_not, ← Bool.decide_and]
        exact decide_eq_decide.mpr (by tauto)
      · simp only [ne_eq, decide_eq_true_eq]
        tauto

def undefinedSymbols (known : List Name) (relocs : List ElfReloc) : List Added :=
  (undefinedAfter known relocs).map (·, undefinedEntry)

/-- The index of the symbol that the relocation refers to. -/
def Resolves (contentCount : ℕ) (added : List Added) (index : ℕ) (reloc : ElfReloc) : Prop :=
  if reloc.symbol ≠ [] then ∃ entry, added[index]? = some (reloc.symbol, entry)
  else 0 ≤ reloc.sectionId ∧ reloc.sectionId < contentCount ∧ index = reloc.sectionId.toNat + 1

theorem Resolves.append {contentCount index : ℕ} {added : List Added} {reloc : ElfReloc}
    (resolves : Resolves contentCount added index reloc) (more : List Added) :
    Resolves contentCount (added ++ more) index reloc := by
  unfold Resolves at *
  split
  case isTrue named =>
    rw [if_pos named] at resolves
    obtain ⟨entry, found⟩ := resolves
    exact ⟨entry, getElem?_append_left (List.getElem?_eq_some_iff.mp found).1 ▸ found⟩
  case isFalse unnamed =>
    rw [if_neg unnamed] at resolves
    exact resolves

variable {base contentCount : ℕ} {tables : SymbolTables} {added : List Added}

/-- The names that are known behind the base. -/
def namesFrom (base : ℕ) (added : List Added) : List Name := (added.drop base).map fst

theorem namesFrom_append {more : List Added} (base_le : base ≤ added.length) :
    namesFrom base (added ++ more) = namesFrom base added ++ more.map fst := by
  rw [namesFrom, drop_append_of_le_length base_le, map_append]
  rfl

theorem SymbolTables.Lists.relocIndex {reloc : ElfReloc} {index : ℕ} {tables' : SymbolTables}
    (lists : tables.Lists base added) (small : Small base added)
    (found : relocIndex contentCount tables reloc = .ok (index, tables')) :
    let more := undefinedSymbols (namesFrom base added) [reloc]
    tables'.Lists base (added ++ more) ∧ Resolves contentCount (added ++ more) index reloc := by
  unfold Elf.relocIndex at found
  by_cases named : reloc.symbol ≠ []
  · rw [if_pos named] at found
    unfold SymbolTables.symbolIndex at found
    cases known : tables.byName.lookup reloc.symbol with
    | some old =>
      have mem : reloc.symbol ∈ namesFrom base added := by
        by_contra absent
        rw [(lists.unknown _).mpr absent] at known
        simp at known
      simp only [known, Except.ok.injEq, Prod.mk.injEq] at found
      obtain ⟨rfl, rfl⟩ := found
      have nothing : undefinedSymbols (namesFrom base added) [reloc] = [] := by
        simp [undefinedSymbols, undefinedAfter, mem]
      simp only [nothing, append_nil]
      refine ⟨lists, ?_⟩
      rw [Resolves, if_pos named]
      exact lists.known _ _ known
    | none =>
      have absent : reloc.symbol ∉ namesFrom base added := (lists.unknown _).mp known
      simp only [known, Except.ok.injEq, Prod.mk.injEq] at found
      obtain ⟨rfl, rfl⟩ := found
      have one : undefinedSymbols (namesFrom base added) [reloc] =
          [(reloc.symbol, undefinedEntry)] := by
        simp [undefinedSymbols, undefinedAfter, absent, named]
      simp only [one]
      refine ⟨lists.addNamed small _ _, ?_⟩
      have lengths : tables.symtab.length = added.length := lists.entries.length_eq
      rw [Resolves, if_pos named, lengths, mod_eq_of_lt small.2]
      exact ⟨undefinedEntry, by simp⟩
  · have unnamed : reloc.symbol = [] := not_not.mp named
    have nothing : undefinedSymbols (namesFrom base added) [reloc] = [] := by
      simp [undefinedSymbols, undefinedAfter, unnamed]
    simp only [nothing, append_nil]
    rw [if_neg named] at found
    split at found
    case isFalse => simp at found
    case isTrue nonneg =>
      unfold sectionSymbol at found
      by_cases inRange : 0 ≤ reloc.sectionId ∧ reloc.sectionId < contentCount
      · simp only [if_pos inRange, Except.ok.injEq, Prod.mk.injEq] at found
        obtain ⟨rfl, rfl⟩ := found
        refine ⟨lists, ?_⟩
        rw [Resolves, if_neg named]
        exact ⟨inRange.1, inRange.2, rfl⟩
      · simp [if_neg inRange] at found

/-- The bytes of relocations whose symbols have the indices. -/
def relocBytes (cls : ElfClass) (data : ByteOrder) (items : List (ℕ × ElfReloc)) : List UInt8 :=
  items.flatMap fun item => writeReloc cls data item.1 item.2

/-- The payload of a section, with the indices of the symbols of its relocations. -/
def Payload (cls : ElfClass) (data : ByteOrder) (contentCount : ℕ) (added : List Added)
    (payload : List UInt8) (relocs : List ElfReloc) : Prop :=
  ∃ items : List (ℕ × ElfReloc), items.map snd = relocs ∧
    payload = relocBytes cls data items ∧
    ∀ item ∈ items, Resolves contentCount added item.1 item.2

theorem Payload.append {cls : ElfClass} {data : ByteOrder} {payload : List UInt8}
    {relocs : List ElfReloc} (holds : Payload cls data contentCount added payload relocs)
    (more : List Added) : Payload cls data contentCount (added ++ more) payload relocs := by
  obtain ⟨items, ofItems, bytes, resolves⟩ := holds
  exact ⟨items, ofItems, bytes, fun item mem => (resolves item mem).append more⟩

theorem undefinedSymbols_cons (known : List Name) (reloc : ElfReloc) (relocs : List ElfReloc) :
    undefinedSymbols known (reloc :: relocs) = undefinedSymbols known [reloc] ++
      undefinedSymbols (known ++ (undefinedSymbols known [reloc]).map fst) relocs := by
  have split := undefinedAfter_append known [reloc] relocs
  rw [singleton_append] at split
  simp [undefinedSymbols, split, comp_def]

theorem undefinedSymbols_append (known : List Name) (relocs relocs' : List ElfReloc) :
    undefinedSymbols known (relocs ++ relocs') = undefinedSymbols known relocs ++
      undefinedSymbols (known ++ (undefinedSymbols known relocs).map fst) relocs' := by
  simp [undefinedSymbols, undefinedAfter_append, comp_def]

theorem SymbolTables.Lists.writeRelocs {cls : ElfClass} {data : ByteOrder}
    {relocs : List ElfReloc} {payload : List UInt8} {tables' : SymbolTables}
    (lists : tables.Lists base added)
    (small : Small base (added ++ undefinedSymbols (namesFrom base added) relocs))
    (written : writeRelocs cls data contentCount tables relocs = .ok (payload, tables')) :
    let all := added ++ undefinedSymbols (namesFrom base added) relocs
    tables'.Lists base all ∧ Payload cls data contentCount all payload relocs := by
  induction relocs generalizing tables added payload with
  | nil =>
    simp only [Elf.writeRelocs, Except.ok.injEq, Prod.mk.injEq] at written
    obtain ⟨rfl, rfl⟩ := written
    simp only [undefinedSymbols, undefinedAfter, map_nil, append_nil]
    exact ⟨lists, [], rfl, rfl, by simp⟩
  | cons reloc relocs ih =>
    rw [undefinedSymbols_cons, ← namesFrom_append lists.base_le, ← append_assoc] at small ⊢
    rw [Elf.writeRelocs] at written
    cases first : Elf.relocIndex contentCount tables reloc with
    | error message => simp [first, bind, Except.bind] at written
    | ok result =>
      obtain ⟨index, between⟩ := result
      simp only [first, bind, Except.bind] at written
      obtain ⟨between_lists, resolves⟩ := lists.relocIndex small.of_append.of_append first
      cases rest : Elf.writeRelocs cls data contentCount between relocs with
      | error message => simp [rest] at written
      | ok result =>
        obtain ⟨bytes, last⟩ := result
        simp only [rest, pure, Except.pure, Except.ok.injEq, Prod.mk.injEq] at written
        obtain ⟨rfl, rfl⟩ := written
        obtain ⟨last_lists, items, ofItems, isBytes, allResolve⟩ :=
          ih between_lists small rest
        refine ⟨last_lists, (index, reloc) :: items, ?_, ?_, ?_⟩
        · rw [map_cons, ofItems]
        · rw [isBytes]
          rfl
        · intro item mem
          rcases mem_cons.mp mem with rfl | mem
          · exact resolves.append _
          · exact allResolve item mem

/-- The payloads of all sections, over all symbols that were added in the end. -/
theorem SymbolTables.Lists.relaPayloads {cls : ElfClass} {data : ByteOrder}
    {parts : List ElfSection} {payloads : List (List UInt8)} {tables' : SymbolTables}
    (lists : tables.Lists base added)
    (small : Small base
      (added ++ undefinedSymbols (namesFrom base added) (parts.flatMap (·.relocs))))
    (written : relaPayloads cls data contentCount tables parts = .ok (payloads, tables')) :
    let all := added ++ undefinedSymbols (namesFrom base added) (parts.flatMap (·.relocs))
    tables'.Lists base all ∧
      Forall₂ (fun part payload => Payload cls data contentCount all payload part.relocs)
        parts payloads := by
  induction parts generalizing tables added payloads with
  | nil =>
    simp only [Elf.relaPayloads, Except.ok.injEq, Prod.mk.injEq] at written
    obtain ⟨rfl, rfl⟩ := written
    simp only [undefinedSymbols, flatMap_nil, undefinedAfter, map_nil, append_nil]
    exact ⟨lists, .nil⟩
  | cons part parts ih =>
    rw [flatMap_cons, undefinedSymbols_append, ← namesFrom_append lists.base_le,
      ← append_assoc] at small ⊢
    rw [Elf.relaPayloads] at written
    cases first : Elf.writeRelocs cls data contentCount tables part.relocs with
    | error message => simp [first, bind, Except.bind] at written
    | ok result =>
      obtain ⟨payload, between⟩ := result
      simp only [first, bind, Except.bind] at written
      obtain ⟨between_lists, holds⟩ := lists.writeRelocs small.of_append first
      cases rest : Elf.relaPayloads cls data contentCount between parts with
      | error message => simp [rest] at written
      | ok result =>
        obtain ⟨others, last⟩ := result
        simp only [rest, pure, Except.pure, Except.ok.injEq, Prod.mk.injEq] at written
        obtain ⟨rfl, rfl⟩ := written
        obtain ⟨last_lists, allHold⟩ := ih between_lists small rest
        exact ⟨last_lists, .cons (holds.append _) allHold⟩

end Relocations

namespace ElfBuilder

variable (builder : ElfBuilder)

def unnamedSymbols : List Added :=
  ([], {}) :: (range builder.sections.length).map fun i => ([], sectionEntry i)

def namedSymbols : List Added :=
  (builder.localSymbols.map fun symbol => (symbol.name, localEntry symbol)) ++
    (builder.globalSymbols.map fun symbol => (symbol.name, globalEntry symbol)) ++
    builder.commons.map fun common => (common.name, commonEntry common)

/-- All symbols of the object in their order. -/
def allSymbols : List Added :=
  builder.unnamedSymbols ++ builder.namedSymbols ++ builder.undefinedNames.map (·, undefinedEntry)

/-- The number of symbols that have no name. -/
def symbolBase : ℕ := builder.sections.length + 1

theorem length_unnamedSymbols : builder.unnamedSymbols.length = builder.symbolBase := by
  simp [unnamedSymbols, symbolBase]

theorem symbols_perm : (builder.localSymbols ++ builder.globalSymbols).Perm builder.symbols := by
  have split := filter_append_perm (fun symbol : ElfSymbol => !symbol.isGlobal) builder.symbols
  simpa [localSymbols, globalSymbols] using split

theorem names_perm :
    (builder.namedSymbols.map fst).Perm builder.definedNames := by
  have split := (builder.symbols_perm.map (·.name)).append_right (builder.commons.map (·.name))
  simpa [namedSymbols, definedNames, comp_def] using split

theorem namesFrom_defined :
    namesFrom builder.symbolBase (builder.unnamedSymbols ++ builder.namedSymbols) =
      builder.namedSymbols.map fst := by
  rw [namesFrom, ← builder.length_unnamedSymbols, drop_left]

theorem undefinedSymbols_defined :
    undefinedSymbols (namesFrom builder.symbolBase
      (builder.unnamedSymbols ++ builder.namedSymbols)) builder.relocs =
      builder.undefinedNames.map (·, undefinedEntry) := by
  rw [undefinedSymbols, undefinedAfter_eq_eraseDups, namesFrom_defined, undefinedNames]
  simp only [builder.names_perm.mem_iff]

theorem allSymbols_eq :
    builder.allSymbols = builder.unnamedSymbols ++ builder.namedSymbols ++
      undefinedSymbols (namesFrom builder.symbolBase
        (builder.unnamedSymbols ++ builder.namedSymbols)) builder.relocs := by
  rw [undefinedSymbols_defined]
  rfl

theorem length_allSymbols : builder.allSymbols.length = builder.symbolCount := by
  have split := builder.symbols_perm.length_eq
  simp only [length_append] at split
  simp only [allSymbols, unnamedSymbols, namedSymbols, symbolCount, length_append,
    length_cons, length_map, length_range]
  omega

variable {builder}

theorem WellFormed.symbolCount_lt (wellFormed : builder.WellFormed) :
    builder.symbolCount < 2 ^ 32 := by
  have bound := wellFormed.symbolCount
  split at bound <;> omega

theorem WellFormed.small (wellFormed : builder.WellFormed) :
    Small builder.symbolBase builder.allSymbols := by
  constructor
  · have names : (builder.allSymbols.drop builder.symbolBase).map fst =
        builder.namedSymbols.map fst ++ builder.undefinedNames := by
      rw [allSymbols, append_assoc, ← builder.length_unnamedSymbols, drop_left]
      simp [comp_def]
    have perm := (builder.names_perm.append_right builder.undefinedNames).map (·.length + 1)
    have room := wellFormed.symbolNames
    rw [names]
    rw [nameRoom, ← perm.sum_nat] at room
    exact room
  · rw [length_allSymbols]
    exact wellFormed.symbolCount_lt

theorem unnamed_lists :
    ({ symtab := {} :: (range builder.sections.length).map sectionEntry } :
      SymbolTables).Lists builder.symbolBase builder.unnamedSymbols where
  strings := StringTable.sound_empty
  entries := by
    apply List.Forall₂.cons
    · exact ⟨StringTable.sound_empty.empty, rfl⟩
    · rw [List.forall₂_map_left_iff, List.forall₂_map_right_iff]
      exact List.forall₂_same.mpr fun i _ => ⟨StringTable.sound_empty.empty, rfl⟩
  base_le := builder.length_unnamedSymbols.ge
  known := by
    intro name index found
    simp at found
  unknown := by
    intro name
    simp [← length_unnamedSymbols]
  room := by simp

theorem WellFormed.definedTables_lists (wellFormed : builder.WellFormed) :
    builder.definedTables.Lists builder.symbolBase
      (builder.unnamedSymbols ++ builder.namedSymbols) := by
  have small : Small builder.symbolBase (builder.unnamedSymbols ++ builder.namedSymbols) :=
    Small.of_append wellFormed.small
  unfold namedSymbols at small ⊢
  rw [← append_assoc] at small ⊢
  rw [← append_assoc] at small ⊢
  exact ((unnamed_lists.addAll small.of_append.of_append).addAll small.of_append).addAll small

/-- The tables that a successful pass over the relocations leaves. -/
theorem WellFormed.tables (wellFormed : builder.WellFormed) {payloads : List (List UInt8)}
    {tables : SymbolTables}
    (written : relaPayloads builder.cls builder.data builder.sections.length
      builder.definedTables builder.sections = .ok (payloads, tables)) :
    tables.Lists builder.symbolBase builder.allSymbols ∧
      Forall₂ (fun part payload => Payload builder.cls builder.data
        builder.sections.length builder.allSymbols payload part.relocs)
        builder.sections payloads := by
  have small := wellFormed.small
  rw [allSymbols_eq] at small ⊢
  exact wellFormed.definedTables_lists.relaPayloads small written

/-- The index in `sh_info` is behind the local symbols. -/
theorem WellFormed.firstGlobal_eq (wellFormed : builder.WellFormed) :
    builder.firstGlobal = builder.symbolBase + builder.localSymbols.length := by
  have small : Small builder.symbolBase (builder.unnamedSymbols ++ builder.namedSymbols) :=
    Small.of_append wellFormed.small
  unfold namedSymbols at small
  rw [← append_assoc, ← append_assoc] at small
  have lists := (unnamed_lists.addAll small.of_append.of_append).entries.length_eq
  have count := small.of_append.of_append.2
  rw [length_append, length_map, length_unnamedSymbols] at lists count
  have isCount : builder.localTables.symtab.length =
      builder.symbolBase + builder.localSymbols.length := lists
  rw [firstGlobal, isCount, mod_eq_of_lt count]

end ElfBuilder

end Aburi.Backend.Elf
