import Aburi.Backend.MachOContents
import Mathlib.Tactic.IntervalCases
import Mathlib.Data.List.Forall2

/-!
# Reading the symbols and relocations of a Mach-O object

Each entry of the symbol table is read back with the name that the string table
holds for it, and the info word of a relocation is taken apart again.
-/

namespace Aburi.Backend.MachO

open Aburi.Lib Nat
open List hiding beq_eq_decide

variable {symtab : List SymtabEntry}

section Strings

structure Strings.Sound (strings : Strings) : Prop where
  found : ∀ name offset, strings.offsets.lookup name = some offset →
    HasAt strings.bytes offset (name ++ [0])

theorem Strings.add_grows (strings : Strings) (name : Name) :
    strings.bytes <+: (strings.add name).bytes := by
  unfold Strings.add
  split
  · exact prefix_refl _
  · exact prefix_append _ _

theorem Strings.Sound.add {strings : Strings} (sound : strings.Sound)
    (small : strings.bytes.length < 2 ^ 32) (name : Name) :
    (strings.add name).Sound ∧ ((strings.add name).offsets.lookup name).isSome = true ∧
      ∀ other, (strings.offsets.lookup other).isSome = true →
        ((strings.add name).offsets.lookup other).isSome = true := by
  unfold Strings.add
  split
  case h_1 offset known => exact ⟨sound, by rw [known]; rfl, fun _ known => known⟩
  case h_2 =>
    refine ⟨⟨?_⟩, by simp, ?_⟩
    · intro other offset found
      rw [lookup_cons] at found
      split at found
      case h_1 same =>
        rw [mod_eq_of_lt small] at found
        rw [eq_of_beq same, ← Option.some.inj found]
        exact hasAt_end _ _
      case h_2 => exact (sound.found other offset found).extend _
    · intro other known
      rw [lookup_cons]
      split
      · rfl
      · exact known

theorem foldl_add_grows (strings : Strings) (entries : List SymtabEntry) :
    strings.bytes <+: (entries.foldl (fun strings entry => strings.add entry.name) strings).bytes := by
  induction entries generalizing strings with
  | nil => exact prefix_refl _
  | cons entry entries ih =>
    exact (strings.add_grows entry.name).trans (ih _)

theorem foldl_add_sound {strings : Strings} (sound : strings.Sound) {entries : List SymtabEntry}
    (small : (entries.foldl (fun strings entry => strings.add entry.name) strings).bytes.length <
      2 ^ 32) :
    (entries.foldl (fun strings entry => strings.add entry.name) strings).Sound ∧
      ∀ name, ((strings.offsets.lookup name).isSome = true ∨ name ∈ entries.map (·.name)) →
        ((entries.foldl (fun strings entry => strings.add entry.name)
          strings).offsets.lookup name).isSome = true := by
  induction entries generalizing strings with
  | nil => exact ⟨sound, by simp⟩
  | cons entry entries ih =>
    have short : strings.bytes.length < 2 ^ 32 :=
      lt_of_le_of_lt (foldl_add_grows strings (entry :: entries)).length_le small
    obtain ⟨soundNext, known, keeps⟩ := sound.add short entry.name
    obtain ⟨soundLast, allKnown⟩ := ih soundNext small
    refine ⟨soundLast, ?_⟩
    intro name isName
    apply allKnown
    rcases isName with old | isName
    · exact Or.inl (keeps name old)
    · rcases mem_cons.mp isName with rfl | isName
      · exact Or.inl known
      · exact Or.inr isName

/-- The name of every entry stands at the offset that is written for it. -/
theorem stringsOf_hasAt (small : (stringsOf symtab).bytes.length < 2 ^ 32) :
    ∀ entry ∈ symtab, HasAt (stringsOf symtab).bytes ((stringsOf symtab).offsetOf entry.name)
      (entry.name ++ [0]) := by
  intro entry mem
  have empty : ({} : Strings).Sound := ⟨by simp⟩
  obtain ⟨sound, known⟩ := foldl_add_sound empty small
  obtain ⟨offset, found⟩ := Option.isSome_iff_exists.mp
    (known entry.name (Or.inr (List.mem_map_of_mem mem)))
  have isOffset : (stringsOf symtab).offsetOf entry.name = offset := by
    rw [Strings.offsetOf, stringsOf, found]
    rfl
  rw [isOffset]
  exact sound.found entry.name offset found

end Strings

section Entries

/-- The ordinal and the address that the writer has for a section. -/
def MachOBuilder.where? (builder : MachOBuilder) (id : ℤ) : ℕ × ℕ :=
  (find builder.placements id).getD (0, 0)

/-- The symbol with the ordinal and the address that the writer has for its section. -/
def placedSymbol (builder : MachOBuilder) (symbol : MachOSymbol) : Symbol :=
  { name := symbol.name
    sect := (builder.where? symbol.sectionId).1
    defined := true
    external := symbol.external
    privateExtern := symbol.privateExtern
    weakDefinition := symbol.weakDefinition
    commonAlign := 0
    value := ((builder.where? symbol.sectionId).2 + symbol.offsetInSection.toNat) % 2 ^ 64 }

def placedReloc (builder : MachOBuilder) (reloc : MachOReloc) : Relocation :=
  { offset := reloc.offset.toNat
    target := if reloc.external then .symbol reloc.symbol
      else .sectionAt (builder.where? reloc.sectionId).1
    type := reloc.type.toNat
    length := reloc.length.toNat
    pcrel := reloc.pcrel }

/-- What a reader finds in an entry. -/
def viewEntry (entry : SymtabEntry) : Symbol :=
  let defined := entry.nType &&& 0x0E = nSect
  { name := entry.name
    sect := entry.nSect
    defined := defined
    external := entry.nType &&& nExt ≠ 0
    privateExtern := entry.nType &&& nPext ≠ 0
    weakDefinition := defined ∧ entry.nDesc &&& nWeakDef ≠ 0
    commonAlign := if defined then 0 else entry.nDesc / 2 ^ 8 % 2 ^ 4
    value := entry.nValue % 2 ^ 64 }

structure SymtabEntry.Fits (entry : SymtabEntry) : Prop where
  nType : entry.nType < 256 ^ 1
  nSect : entry.nSect < 256 ^ 1
  nDesc : entry.nDesc < 256 ^ 2

theorem readSymbol_of_hasAt {bytes strtab : List UInt8} {strings : Strings} {offset : ℕ}
    {entry : SymtabEntry} (fits : entry.Fits) (noZero : 0 ∉ entry.name)
    (named : HasAt strtab (strings.offsetOf entry.name) (entry.name ++ [0]))
    (small : strings.offsetOf entry.name < 2 ^ 32)
    (has : HasAt bytes offset (writeSymbol strings entry)) :
    readSymbol bytes strtab offset = some (viewEntry entry) := by
  have fields := readFields_of_hasAt has
  simp only [map_cons, map_nil] at fields
  simp only [readSymbol, fields, mod_eq_of_lt fits.nType, mod_eq_of_lt fits.nSect,
    mod_eq_of_lt fits.nDesc, mod_eq_of_lt (show _ < 256 ^ 4 from small),
    cString_of_hasAt named noZero, viewEntry]
  rfl

theorem length_writeSymbol (strings : Strings) (entry : SymtabEntry) :
    (writeSymbol strings entry).length = 16 := by
  rw [writeSymbol, length_writeFields]
  rfl

theorem findFrom_lt {id : ℤ} {first ordinal addr : ℕ} {placements : List Placement}
    (found : findFrom id first placements = some (ordinal, addr)) : ordinal < 2 ^ 8 := by
  induction placements generalizing first with
  | nil => simp [findFrom] at found
  | cons placement placements ih =>
    rw [findFrom] at found
    split at found
    · simp only [Option.some.injEq, Prod.mk.injEq] at found
      rw [← found.1]
      exact mod_lt _ (by decide)
    · exact ih found

variable {builder : MachOBuilder}

theorem symbolEntry_ok {symbol : MachOSymbol} {entry : SymtabEntry}
    (made : symbolEntry builder.placements symbol = .ok entry) :
    entry.Fits ∧ entry.name = symbol.name ∧ viewEntry entry = placedSymbol builder symbol := by
  rw [symbolEntry] at made
  cases found : find builder.placements symbol.sectionId with
  | none => simp [found] at made
  | some result =>
    obtain ⟨ordinal, addr⟩ := result
    simp only [found, Except.ok.injEq] at made
    subst made
    refine ⟨⟨?_, findFrom_lt found, ?_⟩, rfl, ?_⟩
    · simp only
      cases symbol.external <;> cases symbol.privateExtern <;> decide
    · simp only
      cases symbol.weakDefinition <;> decide
    · have place : builder.where? symbol.sectionId = (ordinal, addr) := by
        rw [MachOBuilder.where?, found]
        rfl
      simp only [viewEntry, placedSymbol, place]
      cases symbol.external <;> cases symbol.privateExtern <;> cases symbol.weakDefinition <;>
        simp [nSect, nExt, nPext, nWeakDef]

theorem commonEntry_fits (common : MachOCommon) : (commonEntry common).Fits := by
  have undefined : nUndf ||| nExt < 256 ^ 1 := by decide
  refine ⟨undefined, Nat.two_pow_pos 8, ?_⟩
  have low : common.alignLog2.toNat &&& 0xF < 2 ^ 4 := and_lt_two_pow _ (by decide)
  simp only [commonEntry, shiftLeft_eq]
  omega

theorem viewEntry_common {common : MachOCommon} (fits : common.alignLog2.toNat < 2 ^ 4) :
    viewEntry (commonEntry common) = viewCommon common := by
  have masked : common.alignLog2.toNat &&& 0xF = common.alignLog2.toNat := by
    rw [show 0xF = 2 ^ 4 - 1 from rfl, and_two_pow_sub_one_eq_mod, mod_eq_of_lt fits]
  have align : common.alignLog2.toNat <<< 8 / 2 ^ 8 % 2 ^ 4 = common.alignLog2.toNat := by
    rw [shiftLeft_eq, Nat.mul_div_cancel _ (by decide), mod_eq_of_lt fits]
  have size : common.size.toNat % 2 ^ 64 = common.size.toNat :=
    mod_eq_of_lt common.size.toNat_lt
  simp only [viewEntry, commonEntry, viewCommon, masked, align, size]
  simp [nUndf, nExt, nSect, nPext]

theorem undefinedEntry_fits (name : Name) : (undefinedEntry name).Fits := by
  have undefined : nUndf ||| nExt < 256 ^ 1 := by decide
  exact ⟨undefined, Nat.two_pow_pos 8, Nat.two_pow_pos 16⟩

theorem viewEntry_undefined (name : Name) :
    viewEntry (undefinedEntry name) = viewUndefined name := by
  simp [viewEntry, undefinedEntry, viewUndefined, nUndf, nExt, nSect, nPext]

end Entries

section Groups

variable {builder : MachOBuilder} {groups : Groups}

theorem undefinedAfter_eq_eraseDups (known names : List Name) :
    undefinedAfter known names = (names.filter fun name => name ∉ known).eraseDups := by
  induction names generalizing known with
  | nil => rfl
  | cons name names ih =>
    rw [undefinedAfter, filter_cons]
    by_cases old : name ∈ known
    · rw [if_pos old, if_neg (by simpa using old), ih]
    · rw [if_neg old, if_pos (by simpa using old), ih, eraseDups_cons,
        List.filter_filter]
      congr 3
      funext other
      simp only [mem_append, mem_singleton, not_or, beq_eq_decide, ← decide_not, ← Bool.decide_and]
      exact decide_eq_decide.mpr (by tauto)

theorem mapM_ok {α β : Type} {f : α → Except Message β} {list : List α} {results : List β}
    (made : list.mapM f = .ok results) :
    List.Forall₂ (fun element result => f element = .ok result) list results := by
  induction list generalizing results with
  | nil =>
    rw [mapM_nil] at made
    rw [← Except.ok.inj made]
    exact .nil
  | cons element list ih =>
    rw [mapM_cons] at made
    cases first : f element with
    | error message => simp [first, bind, Except.bind] at made
    | ok result =>
      cases rest : list.mapM f with
      | error message => simp [first, rest, bind, Except.bind] at made
      | ok others =>
        simp only [first, rest, bind, Except.bind, pure, Except.pure, Except.ok.injEq] at made
        rw [← made]
        exact .cons first (ih rest)

/-- The entries of the symbols that are selected. -/
def selectedEntries (selected : MachOSymbol → Bool) (symbols : List MachOSymbol)
    (entries : List SymtabEntry) : List SymtabEntry :=
  ((symbols.zip entries).filter (selected ·.1)).map Prod.snd

theorem selectedEntries_view {symbols : List MachOSymbol} {entries : List SymtabEntry}
    (made : List.Forall₂ (fun symbol entry => symbolEntry builder.placements symbol = .ok entry)
      symbols entries) (selected : MachOSymbol → Bool) :
    (selectedEntries selected symbols entries).map viewEntry =
        (symbols.filter selected).map (placedSymbol builder) ∧
      ∀ entry ∈ selectedEntries selected symbols entries, entry.Fits ∧
        entry.name ∈ symbols.map (·.name) := by
  induction made with
  | nil => exact ⟨rfl, by simp [selectedEntries]⟩
  | @cons symbol entry symbols entries first _ ih =>
    obtain ⟨views, fits⟩ := ih
    obtain ⟨entryFits, named, view⟩ := symbolEntry_ok first
    rw [selectedEntries] at views fits ⊢
    rw [zip_cons_cons, filter_cons, filter_cons]
    by_cases isSelected : selected symbol = true
    · rw [if_pos isSelected, if_pos isSelected]
      refine ⟨by rw [map_cons, map_cons, map_cons, views, view], ?_⟩
      intro other mem
      rcases mem_cons.mp mem with rfl | mem
      · exact ⟨entryFits, by simp [named]⟩
      · exact ⟨(fits other mem).1, mem_cons_of_mem _ (fits other mem).2⟩
    · rw [if_neg isSelected, if_neg isSelected]
      exact ⟨views, fun other mem =>
        ⟨(fits other mem).1, mem_cons_of_mem _ (fits other mem).2⟩⟩

theorem sortByName_perm (entries : List SymtabEntry) : (sortByName entries).Perm entries :=
  perm_insertionSort _ entries

/-- What the pass over the symbols leaves. -/
structure Grouped (builder : MachOBuilder) (groups : Groups) : Prop where
  locals : groups.locals.map viewEntry =
    (builder.symbols.filter (!·.external)).map (placedSymbol builder)
  extdefs : (groups.extdefs.map viewEntry).Perm
    ((builder.symbols.filter (·.external)).map (placedSymbol builder))
  undefs : groups.undefs.Perm (builder.commons.map commonEntry ++
    builder.undefinedNames.map undefinedEntry)
  defined : ∀ entry ∈ groups.locals ++ groups.extdefs, entry.Fits ∧
    entry.name ∈ builder.symbols.map (·.name)

theorem grouped (made : builder.groups = .ok groups) : Grouped builder groups := by
  rw [MachOBuilder.groups] at made
  cases mapped : builder.symbols.mapM (symbolEntry builder.placements) with
  | error message => simp [mapped, bind, Except.bind] at made
  | ok entries =>
    simp only [mapped, bind, Except.bind, pure, Except.pure, Except.ok.injEq] at made
    subst made
    have each := mapM_ok mapped
    obtain ⟨localViews, localFits⟩ := selectedEntries_view each (!·.external)
    obtain ⟨externalViews, externalFits⟩ := selectedEntries_view each (·.external)
    refine ⟨localViews, ?_, ?_, ?_⟩
    · rw [← externalViews]
      exact (sortByName_perm _).map viewEntry
    · rw [MachOBuilder.undefinedNames, ← undefinedAfter_eq_eraseDups]
      exact sortByName_perm _
    · intro entry mem
      rcases mem_append.mp mem with isLocal | isExternal
      · exact localFits entry isLocal
      · exact externalFits entry ((sortByName_perm _).mem_iff.mp isExternal)

theorem Grouped.count (isGrouped : Grouped builder groups) :
    groups.symtab.length = builder.symbols.length + builder.commons.length +
      builder.undefinedNames.length := by
  have locals := congrArg List.length isGrouped.locals
  have extdefs := isGrouped.extdefs.length_eq
  have undefs := isGrouped.undefs.length_eq
  have split := (filter_append_perm (fun symbol : MachOSymbol => symbol.external)
    builder.symbols).length_eq
  simp only [length_map, length_append] at locals extdefs undefs split
  simp only [Groups.symtab, length_append]
  omega

theorem Grouped.fits (isGrouped : Grouped builder groups) (wellFormed : builder.WellFormed) :
    ∀ entry ∈ groups.symtab, entry.Fits ∧ 0 ∉ entry.name := by
  intro entry mem
  rcases mem_append.mp mem with isDefined | isUndefined
  · obtain ⟨fits, named⟩ := isGrouped.defined entry isDefined
    exact ⟨fits, wellFormed.names _ (mem_append_left _ named)⟩
  · rcases mem_append.mp (isGrouped.undefs.mem_iff.mp isUndefined) with isCommon | isName
    · obtain ⟨common, inCommons, rfl⟩ := List.mem_map.mp isCommon
      refine ⟨commonEntry_fits common, wellFormed.names _ (mem_append_right _ ?_)⟩
      exact List.mem_map.mpr ⟨common, inCommons, rfl⟩
    · obtain ⟨name, inNames, rfl⟩ := List.mem_map.mp isName
      refine ⟨undefinedEntry_fits name, ?_⟩
      have used := (mem_filter.mp (mem_eraseDups.mp inNames)).1
      obtain ⟨reloc, isReloc, rfl⟩ := List.mem_map.mp used
      obtain ⟨part, isPart, inPart⟩ := mem_flatMap.mp (mem_of_mem_filter isReloc)
      exact ((wellFormed.sections part isPart).relocs reloc inPart).symbol

theorem Grouped.undefinedViews (isGrouped : Grouped builder groups)
    (wellFormed : builder.WellFormed) :
    (groups.undefs.map viewEntry).Perm (builder.commons.map viewCommon ++
      builder.undefinedNames.map viewUndefined) := by
  have views := isGrouped.undefs.map viewEntry
  have commons : (builder.commons.map commonEntry).map viewEntry =
      builder.commons.map viewCommon := by
    rw [List.map_map]
    exact map_congr_left fun common mem => viewEntry_common (wellFormed.commons common mem)
  have names : (builder.undefinedNames.map undefinedEntry).map viewEntry =
      builder.undefinedNames.map viewUndefined := by
    rw [List.map_map]
    exact map_congr_left fun name _ => viewEntry_undefined name
  rwa [map_append, commons, names] at views

end Groups

section Relocations

theorem info_high {pcrel length external type : ℕ} (pcrelFits : pcrel < 2) (lengthFits : length < 4)
    (externalFits : external < 2) (typeFits : type < 16) :
    (external <<< 27 ||| ((pcrel <<< 24 ||| length <<< 25) ||| type <<< 28)) =
      (pcrel + 2 * length + 8 * external + 16 * type) <<< 24 := by
  interval_cases pcrel <;> interval_cases external <;> interval_cases length <;>
    interval_cases type <;> rfl

theorem bit_lt (flag : Bool) : bit flag < 2 := by
  cases flag <;> decide

theorem info_parts {number high : ℕ} (fits : number < 2 ^ 24) :
    (number ||| high <<< 24) % 2 ^ 24 = number ∧ (number ||| high <<< 24) / 2 ^ 24 = high := by
  rw [Nat.or_comm, ← shiftLeft_add_eq_or_of_lt fits, shiftLeft_eq]
  constructor <;> omega

theorem symbolIndex_some {name : Name} {index : ℕ} (small : symtab.length < 2 ^ 24)
    (found : symbolIndex symtab name = some index) :
    index < 2 ^ 24 ∧ (symtab[index]?).map (·.name) = some name := by
  rw [symbolIndex, Option.map_eq_some_iff] at found
  obtain ⟨⟨entry, at'⟩, isFound, isIndex⟩ := found
  have mem := mem_reverse.mp (mem_of_find?_eq_some isFound)
  have named : entry.name = name := by simpa using find?_some isFound
  have below := snd_lt_of_mem_zipIdx mem
  have atEntry := mem_zipIdx_iff_getElem?.mp mem
  simp only [Nat.add_zero] at below
  have same : at' = index := by
    rw [← isIndex]
    exact (mod_eq_of_lt (by omega)).symm
  subst same
  exact ⟨by omega, by rw [atEntry]; simp [named]⟩

/-- The info word of a relocation says its target, its type, its length and whether it is
relative. -/
theorem readReloc_of_hasAt {builder : MachOBuilder} {reloc : MachOReloc} {info offset : ℕ}
    {bytes : List UInt8} (fits : reloc.Fits) (small : symtab.length < 2 ^ 24)
    (made : relocInfo builder.placements symtab reloc = .ok info)
    (has : HasAt bytes offset (writeFields .lsb [(4, reloc.offset.toNat), (4, info)])) :
    readReloc (symtab.map viewEntry) bytes offset = some (placedReloc builder reloc) := by
  have lengthMask : reloc.length.toNat &&& 0x3 = reloc.length.toNat := by
    rw [show 0x3 = 2 ^ 2 - 1 from rfl, and_two_pow_sub_one_eq_mod, mod_eq_of_lt fits.length]
  have typeMask : reloc.type.toNat &&& 0xF = reloc.type.toNat := by
    rw [show 0xF = 2 ^ 4 - 1 from rfl, and_two_pow_sub_one_eq_mod, mod_eq_of_lt fits.type]
  have pcrelFits := bit_lt reloc.pcrel
  have lengthFits := fits.length
  have typeFits := fits.type
  have fields := readFields_of_hasAt has
  simp only [map_cons, map_nil] at fields
  rw [relocInfo, lengthMask, typeMask] at made
  -- The number and the bits above it, for either kind of target.
  have finish : ∀ number external, number < 2 ^ 24 → external < 2 →
      info = number ||| (bit reloc.pcrel + 2 * reloc.length.toNat + 8 * external +
        16 * reloc.type.toNat) <<< 24 →
      readReloc (symtab.map viewEntry) bytes offset =
        (if external = 1 then ((symtab.map viewEntry)[number]?).map fun s => .symbol s.name
          else some (.sectionAt number)).map fun target =>
            { offset := reloc.offset.toNat, target := target, type := reloc.type.toNat
              length := reloc.length.toNat, pcrel := reloc.pcrel } := by
    intro number external numberFits externalFits isInfo
    obtain ⟨low, high⟩ := @info_parts number (bit reloc.pcrel + 2 * reloc.length.toNat +
      8 * external + 16 * reloc.type.toNat) numberFits
    rw [← isInfo] at low high
    have infoFits : info % 256 ^ 4 = info := mod_eq_of_lt (by omega)
    have offsetFits : reloc.offset.toNat % 256 ^ 4 = reloc.offset.toNat :=
      mod_eq_of_lt fits.offset
    have type : info / 2 ^ 28 % 2 ^ 4 = reloc.type.toNat := by omega
    have length : info / 2 ^ 25 % 2 ^ 2 = reloc.length.toNat := by omega
    have kind : info / 2 ^ 27 % 2 = external := by omega
    have pcrel : info / 2 ^ 24 % 2 = bit reloc.pcrel := by omega
    have isPcrel : decide (bit reloc.pcrel = 1) = reloc.pcrel := by cases reloc.pcrel <;> rfl
    simp only [readReloc, fields, infoFits, offsetFits, low, type, length, kind, pcrel, isPcrel]
  by_cases external : reloc.external = true
  · rw [if_pos external] at made
    cases found : symbolIndex symtab reloc.symbol with
    | none => simp [found] at made
    | some index =>
      obtain ⟨indexFits, named⟩ := symbolIndex_some small found
      have mask : index &&& 0x00FFFFFF = index := by
        rw [show 0x00FFFFFF = 2 ^ 24 - 1 from rfl, and_two_pow_sub_one_eq_mod,
          mod_eq_of_lt indexFits]
      simp only [found, Except.ok.injEq, mask] at made
      rw [Nat.or_assoc, info_high pcrelFits lengthFits (by decide) typeFits] at made
      rw [finish index 1 indexFits (by decide) made.symm, if_pos rfl]
      obtain ⟨entry, atIndex, isName⟩ := Option.map_eq_some_iff.mp named
      simp [getElem?_map, atIndex, placedReloc, external, viewEntry, isName]
  · rw [if_neg external] at made
    cases found : find builder.placements reloc.sectionId with
    | none => simp [found] at made
    | some result =>
      obtain ⟨ordinal, addr⟩ := result
      have ordinalFits : ordinal < 2 ^ 24 := lt_trans (findFrom_lt found) (by decide)
      have mask : ordinal &&& 0x00FFFFFF = ordinal := by
        rw [show 0x00FFFFFF = 2 ^ 24 - 1 from rfl, and_two_pow_sub_one_eq_mod,
          mod_eq_of_lt ordinalFits]
      have high := @info_high (bit reloc.pcrel) reloc.length.toNat 0 reloc.type.toNat pcrelFits
        lengthFits (by decide) typeFits
      rw [zero_shiftLeft, zero_or] at high
      simp only [found, Except.ok.injEq, mask, high] at made
      rw [finish ordinal 0 ordinalFits (by decide) made.symm, if_neg (by decide)]
      simp [placedReloc, external, MachOBuilder.where?, found]

theorem orderedRelocs_filter (relocs : List MachOReloc) (offset : ℕ) :
    (orderedRelocs relocs).filter (fun reloc => reloc.offset.toNat = offset) =
      relocs.filter fun reloc => reloc.offset.toNat = offset := by
  have inserted : ∀ (reloc : MachOReloc) (rest : List MachOReloc),
      (rest.orderedInsert (fun first second => second.offset ≤ first.offset) reloc).filter
        (fun reloc => reloc.offset.toNat = offset) =
      (reloc :: rest).filter fun reloc => reloc.offset.toNat = offset := by
    intro reloc rest
    induction rest with
    | nil => rfl
    | cons other rest ih =>
      rw [List.orderedInsert]
      split
      · rfl
      · rename_i passes
        have different : reloc.offset ≠ other.offset := by
          intro same
          exact passes (same ▸ UInt64.le_refl _)
        rw [filter_cons, ih]
        simp only [filter_cons]
        by_cases isOther : other.offset.toNat = offset
        · have notReloc : ¬reloc.offset.toNat = offset := fun same =>
            different (UInt64.toNat_inj.mp (same.trans isOther.symm))
          simp [isOther, notReloc]
        · simp [isOther]
  induction relocs with
  | nil => rfl
  | cons reloc relocs ih =>
    have step : orderedRelocs (reloc :: relocs) =
        (orderedRelocs relocs).orderedInsert (fun first second => second.offset ≤ first.offset)
          reloc := rfl
    rw [step, inserted, filter_cons, filter_cons, ih]

end Relocations

end Aburi.Backend.MachO
