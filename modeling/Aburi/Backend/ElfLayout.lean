import Aburi.Backend.ElfTables

/-!
# The contents of an ELF object

What the writer places in the file is described by a list of items: a name, the
header but for what the layout decides, and the block, where there is one.  The
file only grows while items are placed, so that every block stays where its
header says, and blocks follow each other in the order of their headers.
-/

namespace Aburi.Backend.Elf

open Aburi.Lib List Prod

/-- Something that has a section header. -/
structure Item where
  name : Name
  slot : HeaderSlot
  content : Option (List UInt8)

/-- The header says where the item is and what it is called. -/
structure Stands (start : ℕ) (layout : Layout) (header : HeaderSlot) (item : Item) : Prop where
  named : layout.shstrtab.Has header.name item.name
  slot : header = { item.slot with
    name := header.name, offset := header.offset, size := header.size }
  size : header.size = match item.content with
    | some content => content.length
    | none => item.slot.size
  block : ∀ content, item.content = some content →
    HasAt layout.file header.offset content ∧ start ≤ header.offset ∧
      (header.align ≠ 0 → header.offset % header.align = 0)
  within : header.offset ≤ layout.file.length

theorem Stands.grow {start : ℕ} {layout layout' : Layout} {header : HeaderSlot} {item : Item}
    (stands : Stands start layout header item)
    (names : layout.shstrtab.bytes <+: layout'.shstrtab.bytes)
    (file : layout.file <+: layout'.file) : Stands start layout' header item where
  named := stands.named.grow names
  slot := stands.slot
  size := stands.size
  block := by
    intro content isContent
    obtain ⟨has, behind, aligned⟩ := stands.block content isContent
    exact ⟨has.grow file, behind, aligned⟩
  within := stands.within.trans file.length_le

/-- One block ends before the other begins. -/
def Before (first second : HeaderSlot × Item) : Prop :=
  first.2.content.isSome = true → second.2.content.isSome = true →
    first.1.offset + first.1.size ≤ second.1.offset

/-- The layout holds the items in their order. -/
structure Layout.Holds (start : ℕ) (layout : Layout) (pairs : List (HeaderSlot × Item)) :
    Prop where
  strings : layout.shstrtab.Sound
  headers : layout.headers = pairs.map fst
  stands : ∀ pair ∈ pairs, Stands start layout pair.1 pair.2
  apart : pairs.Pairwise Before
  start_le : start ≤ layout.file.length
  room : layout.shstrtab.bytes.length ≤ nameRoom (pairs.map (·.2.name))

section Placing

variable {start : ℕ} {layout : Layout} {pairs : List (HeaderSlot × Item)}

theorem Stands.end_le {header : HeaderSlot} {item : Item}
    (stands : Stands start layout header item) (isSome : item.content.isSome = true) :
    header.offset + header.size ≤ layout.file.length := by
  obtain ⟨content, isContent⟩ := Option.isSome_iff_exists.mp isSome
  have size := stands.size
  rw [isContent] at size
  rw [size]
  exact (stands.block content isContent).1.le

theorem holds_extend {layout' : Layout} {header : HeaderSlot} {item : Item}
    (holds : layout.Holds start pairs)
    (interned : layout'.shstrtab = (layout.shstrtab.intern item.name).2)
    (file : layout.file <+: layout'.file)
    (headers : layout'.headers = layout.headers ++ [header])
    (small : nameRoom (pairs.map (·.2.name)) < 2 ^ 32)
    (behind : layout.file.length ≤ header.offset)
    (stands : layout'.shstrtab.Sound → layout'.shstrtab.Has (layout.shstrtab.intern item.name).1
      item.name → Stands start layout' header item) :
    layout'.Holds start (pairs ++ [(header, item)]) := by
  have short : layout.shstrtab.bytes.length < 2 ^ 32 := lt_of_le_of_lt holds.room small
  obtain ⟨sound, has⟩ := holds.strings.intern item.name short
  have names : layout.shstrtab.bytes <+: layout'.shstrtab.bytes := by
    rw [interned]
    exact StringTable.intern_grows item.name
  rw [← interned] at sound has
  have standsNew := stands sound has
  refine ⟨sound, ?_, ?_, ?_, ?_, ?_⟩
  · rw [headers, holds.headers, map_append]
    rfl
  · intro pair mem
    rcases mem_append.mp mem with old | new
    · exact (holds.stands pair old).grow names file
    · rw [mem_singleton.mp new]
      exact standsNew
  · refine pairwise_append.mpr ⟨holds.apart, pairwise_singleton _ _, ?_⟩
    intro pair old new isNew hasBlock _
    rw [mem_singleton.mp isNew]
    exact ((holds.stands pair old).end_le hasBlock).trans behind
  · exact holds.start_le.trans file.length_le
  · have grown := @StringTable.length_intern layout.shstrtab item.name
    rw [← interned] at grown
    have room := holds.room
    rw [map_append, nameRoom_append]
    simp only [nameRoom, map_cons, map_nil, sum_cons, sum_nil] at room ⊢
    omega

section

variable (holds : layout.Holds start pairs) (small : nameRoom (pairs.map (·.2.name)) < 2 ^ 32)
  (name : Name)
include holds small name

/-- A block is placed behind the others. -/
theorem Layout.Holds.put {alignment : ℕ} (positive : 0 < alignment) {slot : HeaderSlot}
    (alignedBy : slot.align ≠ 0 → slot.align = alignment) (content : List UInt8) :
    ∃ header, (layout.put name alignment slot content).Holds start
      (pairs ++ [(header, ⟨name, slot, some content⟩)]) := by
  have padded : layout.file <+: padTo alignment layout.file := prefix_append _ _
  refine ⟨_, holds_extend holds rfl (padded.trans (prefix_append _ _)) rfl small
    padded.length_le ?_⟩
  intro sound has
  refine ⟨has, rfl, rfl, ?_, ?_⟩
  · intro content' isContent
    rw [← Option.some.inj isContent]
    refine ⟨hasAt_end _ _, holds.start_le.trans padded.length_le, ?_⟩
    intro nonzero
    have same : slot.align = alignment := alignedBy nonzero
    change (padTo alignment layout.file).length % slot.align = 0
    rw [same]
    exact length_padTo_mod positive
  · exact (prefix_append _ _).length_le

theorem Layout.Holds.putNobits (slot : HeaderSlot) (size : ℕ) :
    ∃ header, (layout.putNobits name slot size).Holds start
      (pairs ++ [(header, ⟨name, { slot with size := size }, none⟩)]) := by
  refine ⟨_, holds_extend holds rfl (prefix_refl _) rfl small le_rfl ?_⟩
  intro sound has
  refine ⟨has, rfl, rfl, ?_, le_rfl⟩
  intro content isContent
  simp at isContent

end

def sectionItem (part : ElfSection) : Item :=
  if part.nobits then ⟨part.name, { sectionSlot part with size := part.nobitsSize.toNat }, none⟩
  else ⟨part.name, sectionSlot part, some part.bytes⟩

theorem Layout.Holds.putSection (holds : layout.Holds start pairs)
    (small : nameRoom (pairs.map (·.2.name)) < 2 ^ 32) (part : ElfSection) :
    ∃ header, (layout.putSection part).Holds start (pairs ++ [(header, sectionItem part)]) := by
  unfold Layout.putSection sectionItem
  split
  case isTrue nobits =>
    rw [ElfSection.contentSize, if_pos nobits]
    exact holds.putNobits small _ _ _
  case isFalse =>
    split
    case isTrue zero =>
      apply holds.put small _ Nat.one_pos
      intro nonzero
      simp [sectionSlot, zero] at nonzero
    case isFalse nonzero =>
      apply holds.put small
      · exact Nat.pos_of_ne_zero fun zero => nonzero (UInt32.toNat_inj.mp zero)
      · intro _
        rfl

theorem sectionItem_name (part : ElfSection) : (sectionItem part).name = part.name := by
  unfold sectionItem
  split <;> rfl

theorem room_of_append {names names' : List Name} (small : nameRoom (names ++ names') < 2 ^ 32) :
    nameRoom names < 2 ^ 32 := by
  rw [nameRoom_append] at small
  omega

/-- What one step adds, a run of steps adds for each of its elements. -/
theorem Layout.Holds.foldl {α : Type} {step : Layout → α → Layout} (items : α → List Item)
    (steps : ∀ (layout : Layout) pairs element, layout.Holds start pairs →
      nameRoom (pairs.map (·.2.name)) < 2 ^ 32 →
      ∃ more, (step layout element).Holds start (pairs ++ more) ∧ more.map snd = items element)
    (elements : List α) (holds : layout.Holds start pairs)
    (small : nameRoom (pairs.map (·.2.name) ++ (elements.flatMap items).map (·.name)) < 2 ^ 32) :
    ∃ more, (elements.foldl step layout).Holds start (pairs ++ more) ∧
      more.map snd = elements.flatMap items := by
  induction elements generalizing layout pairs with
  | nil => exact ⟨[], by simpa using holds, rfl⟩
  | cons element elements ih =>
    obtain ⟨first, holdsFirst, isFirst⟩ := steps layout pairs element holds (room_of_append small)
    have names : (pairs ++ first).map (·.2.name) =
        pairs.map (·.2.name) ++ (items element).map (·.name) := by
      rw [map_append, ← isFirst, List.map_map]
      rfl
    obtain ⟨rest, holdsRest, isRest⟩ := ih holdsFirst (by
      rw [names]
      simpa using small)
    refine ⟨first ++ rest, by simpa using holdsRest, ?_⟩
    rw [map_append, isFirst, isRest, flatMap_cons]

def relaItem (cls : ElfClass) (symtabIndex : ℕ) (item : (ElfSection × List UInt8) × ℕ) : Item :=
  ⟨text ".rela" ++ item.1.1.name, relaSlot cls symtabIndex item.2, some item.1.2⟩

def relaItems (cls : ElfClass) (symtabIndex : ℕ) (item : (ElfSection × List UInt8) × ℕ) :
    List Item :=
  if item.1.2 = [] then [] else [relaItem cls symtabIndex item]

theorem ElfClass.wordSize_pos (cls : ElfClass) : 0 < cls.wordSize := by
  cases cls <;> decide

theorem Layout.Holds.putRela (cls : ElfClass) (symtabIndex : ℕ)
    (holds : layout.Holds start pairs) (small : nameRoom (pairs.map (·.2.name)) < 2 ^ 32)
    (item : (ElfSection × List UInt8) × ℕ) :
    ∃ more, (Layout.putRela cls symtabIndex layout item).Holds start (pairs ++ more) ∧
      more.map snd = relaItems cls symtabIndex item := by
  by_cases empty : item.1.2 = []
  · refine ⟨[], ?_, by simp [relaItems, empty]⟩
    rw [Layout.putRela, if_pos empty, append_nil]
    exact holds
  · have alignedBy : (relaSlot cls symtabIndex item.2).align ≠ 0 →
        (relaSlot cls symtabIndex item.2).align = cls.wordSize := fun _ => rfl
    obtain ⟨header, holdsMore⟩ := holds.put small (text ".rela" ++ item.1.1.name)
      cls.wordSize_pos alignedBy item.1.2
    refine ⟨[(header, relaItem cls symtabIndex item)], ?_, by simp [relaItems, empty]⟩
    rw [Layout.putRela, if_neg empty]
    exact holdsMore

end Placing

namespace ElfBuilder

variable (builder : ElfBuilder) (payloads : List (List UInt8)) (tables : SymbolTables)

def sectionItems : List Item := builder.sections.map sectionItem

def allRelaItems : List Item :=
  (builder.sections.zip payloads).zipIdx.flatMap
    (relaItems builder.cls (builder.symtabIndex payloads))

def symtabItem : Item :=
  ⟨text ".symtab", symtabSlot builder.cls ((builder.symtabIndex payloads + 1) % 2 ^ 32)
    builder.firstGlobal, some (tables.symtab.flatMap (writeSymbol builder.cls builder.data))⟩

def strtabItem : Item := ⟨text ".strtab", strtabSlot, some tables.strtab.bytes⟩

def nullItem : Item := ⟨[], {}, none⟩

def nullLayout : Layout := { file := List.replicate builder.cls.ehdrSize 0 }

theorem nullLayout_holds :
    builder.nullLayout.Holds builder.cls.ehdrSize [({}, nullItem)] where
  strings := StringTable.sound_empty
  headers := rfl
  stands := by
    intro pair mem
    rw [mem_singleton.mp mem]
    refine ⟨StringTable.sound_empty.empty, rfl, rfl, ?_, Nat.zero_le _⟩
    intro content isContent
    simp [nullItem] at isContent
  apart := pairwise_singleton _ _
  start_le := by simp [nullLayout]
  room := by simp [nullLayout, nameRoom, nullItem]

/-- The items of the file before the last one, which holds their names. -/
def itemsBefore : List Item :=
  nullItem :: (builder.sectionItems ++ builder.allRelaItems payloads ++
    [builder.symtabItem payloads tables, strtabItem tables])

def lastName : Name := text ".shstrtab"

/-- The contents of the file hold all items; the last one holds the names of all headers. -/
theorem contents_hold
    (small : nameRoom ((builder.itemsBefore payloads tables).map (·.name) ++ [lastName]) < 2 ^ 32) :
    ∃ (pairs : List (HeaderSlot × Item)) (header : HeaderSlot),
      (builder.contents payloads tables).Holds builder.cls.ehdrSize
        (pairs ++ [(header, ⟨lastName, strtabSlot,
          some (builder.contents payloads tables).shstrtab.bytes⟩)]) ∧
      pairs.map snd = builder.itemsBefore payloads tables := by
  have split : itemsBefore builder payloads tables = [nullItem] ++ builder.sectionItems ++
      builder.allRelaItems payloads ++ [builder.symtabItem payloads tables] ++
      [strtabItem tables] := by
    simp [itemsBefore]
  rw [split] at small ⊢
  have smallStrtab := room_of_append small
  have smallSymtab : nameRoom (([nullItem] ++ builder.sectionItems ++
      builder.allRelaItems payloads ++ [builder.symtabItem payloads tables]).map (·.name)) <
      2 ^ 32 := by
    rw [map_append] at smallStrtab
    exact room_of_append smallStrtab
  have smallRelas : nameRoom (([nullItem] ++ builder.sectionItems ++
      builder.allRelaItems payloads).map (·.name)) < 2 ^ 32 := by
    rw [map_append] at smallSymtab
    exact room_of_append smallSymtab
  have smallParts : nameRoom (([nullItem] ++ builder.sectionItems).map (·.name)) < 2 ^ 32 := by
    rw [map_append] at smallRelas
    exact room_of_append smallRelas
  obtain ⟨parts, holdsParts, areParts⟩ := Layout.Holds.foldl (fun part => [sectionItem part])
    (fun layout pairs part holds small => by
      obtain ⟨header, more⟩ := holds.putSection small part
      exact ⟨_, more, rfl⟩)
    builder.sections builder.nullLayout_holds (by
      rw [← map_eq_flatMap]
      rw [map_append] at smallParts
      exact smallParts)
  rw [← map_eq_flatMap] at areParts
  have namesParts : ([(({} : HeaderSlot), nullItem)] ++ parts).map (·.2.name) =
      ([nullItem] ++ builder.sectionItems).map (·.name) := by
    rw [map_append, map_append, sectionItems, ← areParts, List.map_map]
    rfl
  obtain ⟨relas, holdsRelas, areRelas⟩ := Layout.Holds.foldl
    (relaItems builder.cls (builder.symtabIndex payloads))
    (fun layout pairs item holds small =>
      holds.putRela builder.cls (builder.symtabIndex payloads) small item)
    (builder.sections.zip payloads).zipIdx holdsParts (by
      rw [namesParts, ← map_append]
      exact smallRelas)
  have namesRelas : ([(({} : HeaderSlot), nullItem)] ++ parts ++ relas).map (·.2.name) =
      ([nullItem] ++ builder.sectionItems ++ builder.allRelaItems payloads).map (·.name) := by
    rw [map_append, namesParts, allRelaItems, ← areRelas]
    simp
  obtain ⟨symtab, holdsSymtab⟩ := holdsRelas.put (namesRelas ▸ smallRelas)
    (text ".symtab") builder.cls.wordSize_pos
    (fun _ : (builder.symtabItem payloads tables).slot.align ≠ 0 => rfl)
    (tables.symtab.flatMap (writeSymbol builder.cls builder.data))
  obtain ⟨strtab, holdsStrtab⟩ := holdsSymtab.put
    (by
      rw [map_append, namesRelas]
      rw [map_append] at smallSymtab
      exact smallSymtab)
    (text ".strtab") Nat.one_pos (fun _ : strtabSlot.align ≠ 0 => rfl) tables.strtab.bytes
  obtain ⟨last, holdsLast⟩ := holdsStrtab.put
    (by
      rw [map_append, map_append, namesRelas]
      rw [map_append, map_append] at smallStrtab
      exact smallStrtab)
    lastName Nat.one_pos (fun _ : strtabSlot.align ≠ 0 => rfl)
    (builder.contents payloads tables).shstrtab.bytes
  refine ⟨_, last, holdsLast, ?_⟩
  rw [map_append, map_append, map_append, map_append, areParts, areRelas]
  rfl

end ElfBuilder

end Aburi.Backend.Elf
