import Aburi.Backend.MachOFile

/-!
# The Mach-O writer is lossless

Ordinals and addresses of sections are taken from the headers that a reader
finds.  The symbols, the relocations and the addresses in the fields of the
contents agree with them, in the order in which the file has the sections.
-/

namespace Aburi.Backend.MachO

open Aburi.Lib List Nat

variable {builder : MachOBuilder} {sections : List Section} {id : ℤ} {ordinal addr : ℕ}

section Where

theorem findFrom_some {first : ℕ} {placements : List Placement}
    (found : findFrom id first placements = some (ordinal, addr)) :
    ∃ index placement, (placements.findIdx? fun other => (other.id : ℤ) = id) = some index ∧
      placements[index]? = some placement ∧ placement.addr = addr ∧
      ordinal = (first + index) % 2 ^ 8 := by
  induction placements generalizing first with
  | nil => cases found
  | cons placement placements ih =>
    rw [findFrom] at found
    split at found
    case isTrue same =>
      cases found
      exact ⟨0, placement, by simp [findIdx?_cons, same], rfl, rfl, rfl⟩
    case isFalse differ =>
      obtain ⟨index, other, isFound, atIndex, isAddr, isOrdinal⟩ := ih found
      refine ⟨index + 1, other, by simp [findIdx?_cons, differ, isFound], atIndex, isAddr, ?_⟩
      rw [isOrdinal, Nat.add_assoc, Nat.add_comm 1 index]

theorem order_eq (builder : MachOBuilder) :
    builder.order = builder.placements.map fun placement => (placement.part, placement.id) :=
  (place_map 0 builder.order).symm

variable (few : builder.placements.length ≤ 255)
  (placed : Forall₂ (Placed builder) builder.placements sections)
include few placed

/-- The number and the address that the writer has for a section are its ordinal
and its address in the file. -/
theorem whereIn_of_find (found : find builder.placements id = some (ordinal, addr)) :
    ∃ part, whereIn builder.order sections id = some (ordinal, part) ∧
      part.addr = addr % 2 ^ 64 := by
  obtain ⟨index, placement, isFound, atIndex, isAddr, isOrdinal⟩ := findFrom_some found
  obtain ⟨inside, isPlacement⟩ := List.getElem?_eq_some_iff.mp atIndex
  have inFile : index < sections.length := placed.length_eq ▸ inside
  have reads := placed.get inside inFile
  rw [List.get_eq_getElem, isPlacement] at reads
  refine ⟨sections[index], ?_, isAddr ▸ reads.addr⟩
  have small : index + 1 = ordinal := by
    rw [isOrdinal, Nat.add_comm 1]
    exact (mod_eq_of_lt (by omega)).symm
  have sameIndex : (builder.placements.findIdx?
      ((fun item : MachOSection × ℕ => decide ((item.2 : ℤ) = id)) ∘
        fun placement => (placement.part, placement.id))) = some index := isFound
  rw [whereIn, order_eq, findIdx?_map, sameIndex, Option.bind_some,
    getElem?_eq_getElem inFile, Option.map_some, small]

theorem viewSymbol_eq {symbol : MachOSymbol}
    (found : ∃ place, find builder.placements symbol.sectionId = some place) :
    viewSymbol builder.order sections symbol = some (placedSymbol builder symbol) := by
  obtain ⟨⟨ordinal, addr⟩, found⟩ := found
  obtain ⟨part, isPart, isAddr⟩ := whereIn_of_find few placed found
  have isPlace : builder.where? symbol.sectionId = (ordinal, addr) := by
    rw [MachOBuilder.where?, found]
    rfl
  simp only [viewSymbol, isPart, Option.map_some, placedSymbol, isPlace, isAddr, mod_add_mod]

theorem viewReloc_eq {reloc : MachOReloc} (found : reloc.external = false →
      ∃ place, find builder.placements reloc.sectionId = some place) :
    viewReloc builder.order sections reloc = some (placedReloc builder reloc) := by
  cases kind : reloc.external with
  | true => simp [viewReloc, placedReloc, kind]
  | false =>
    obtain ⟨⟨ordinal, addr⟩, found⟩ := found kind
    obtain ⟨part, isPart, -⟩ := whereIn_of_find few placed found
    simp [viewReloc, placedReloc, kind, isPart, MachOBuilder.where?, found]

end Where

section Fields

variable {contents : List UInt8} {offset width : ℕ} {addend : ℤ}

theorem addToField_added (inside : offset + width ≤ contents.length) (short : width ≤ 8) :
    FieldAdded contents (addToField contents offset width addend) offset width addend := by
  have front : (contents.take offset).length = offset := by
    rw [length_take]
    omega
  refine ⟨length_addToField addend inside, inside, ?_, ?_⟩
  · have isField : ((addToField contents offset width addend).drop offset).take width =
        scalar .lsb (((littleEndian ((contents.drop offset).take width) : ℤ) + addend) %
          2 ^ 64).toNat width := by
      rw [addToField, drop_left' front, take_left' (length_scalar _ _ _)]
    have divides : (256 : ℤ) ^ width ∣ 2 ^ 64 := by
      have power : (2 : ℤ) ^ 64 = 256 ^ 8 := by norm_num
      rw [power]
      exact pow_dvd_pow _ short
    have lower : 0 ≤ ((littleEndian ((contents.drop offset).take width) : ℤ) + addend) % 2 ^ 64 :=
      Int.emod_nonneg _ (by decide)
    rw [isField, littleEndian_scalar, Int.natCast_emod, Int.toNat_of_nonneg lower, Nat.cast_pow,
      Nat.cast_ofNat, Int.emod_emod_of_dvd _ divides]
  · intro i outside
    rw [addToField]
    rcases outside with before | behind
    · rw [getElem?_append_left (by omega), getElem?_take_of_lt before]
    · rw [getElem?_append_right (by omega), front, getElem?_append_right (by
        rw [length_scalar]; omega), length_scalar, getElem?_drop]
      congr 1
      omega

theorem FieldAdded.congr {after : List UInt8} {other : ℤ} (short : width ≤ 8)
    (same : addend % 2 ^ 64 = other % 2 ^ 64)
    (added : FieldAdded contents after offset width addend) :
    FieldAdded contents after offset width other := by
  refine ⟨added.length, added.inside, ?_, added.others⟩
  have divides : (256 : ℤ) ^ width ∣ 2 ^ 64 := by
    have power : (2 : ℤ) ^ 64 = 256 ^ 8 := by norm_num
    rw [power]
    exact pow_dvd_pow _ short
  have narrow : addend % 256 ^ width = other % 256 ^ width := by
    rw [← Int.emod_emod_of_dvd addend divides, same, Int.emod_emod_of_dvd _ divides]
  rw [added.value, Int.add_emod, narrow, ← Int.add_emod]

theorem addsAddress_iff {reloc : MachOReloc} :
    reloc.addsAddress = true ↔ reloc.AddsAddress := by
  simp [MachOReloc.addsAddress, MachOReloc.AddsAddress, relocUnsigned]

/-- What the passes over the relocations of a section add is the address of the
section that each is about, as the file has it. -/
theorem foldlM_applyReloc_added (few : builder.placements.length ≤ 255)
    (placed : Forall₂ (Placed builder) builder.placements sections) {relocs : List MachOReloc}
    {after : List UInt8}
    (applied : relocs.foldlM (applyReloc builder.placements addr) contents = .ok after) :
    AddressesAdded builder.order sections (addr % 2 ^ 64) relocs contents after := by
  induction relocs generalizing contents with
  | nil =>
    rw [← Except.ok.inj applied]
    exact .nil
  | cons reloc relocs ih =>
    rw [foldlM_cons] at applied
    cases first : applyReloc builder.placements addr contents reloc with
    | error message => simp [first, bind, Except.bind] at applied
    | ok between =>
      simp only [first, bind, Except.bind] at applied
      rcases applyReloc_ok first with ⟨plain, same⟩ |
        ⟨adds, ordinal, target, found, short, inside, isAdded⟩
      · rw [same] at applied
        refine .keep (fun adds => ?_) (ih applied)
        rw [addsAddress_iff.mpr adds] at plain
        cases plain
      · obtain ⟨part, isPart, isAddr⟩ := whereIn_of_find few placed found
        refine .add (addsAddress_iff.mp adds) isPart ?_ (ih applied)
        rw [isAdded, isAddr]
        apply (addToField_added inside short).congr short
        split <;> push_cast
        · exact (Int.sub_emod _ _ _)
        · exact (Int.emod_emod_of_dvd _ dvd_rfl).symm

end Fields

section Places

/-- Sections with contents, those of zeros last. -/
theorem order_perm_kept (builder : MachOBuilder) : builder.order.Perm builder.kept := by
  have parts := filter_append_perm (fun item : MachOSection × ℕ => !item.1.zerofill) builder.kept
  have isFilled : builder.kept.filter (fun item => !item.1.zerofill) =
      builder.sections.zipIdx.filter fun item => !item.1.zerofill && 0 < item.1.contentSize := by
    rw [MachOBuilder.kept, filter_filter]
    apply filter_congr
    intro item _
    cases zeros : item.1.zerofill with
    | true => rfl
    | false => cases bytes : item.1.bytes <;> simp [MachOSection.contentSize, zeros, bytes]
  have isZero : builder.kept.filter (fun item => !!item.1.zerofill) =
      builder.sections.zipIdx.filter fun item => item.1.zerofill && 0 < item.1.contentSize := by
    rw [MachOBuilder.kept, filter_filter]
    apply filter_congr
    intro item _
    cases zeros : item.1.zerofill with
    | true =>
      rw [Bool.eq_iff_iff]
      simp [MachOSection.contentSize, zeros, Nat.pos_iff_ne_zero, ← UInt64.toNat_inj]
    | false => rfl
  rw [isFilled, isZero] at parts
  exact parts

theorem alignUp_next (value : ℕ) {align : ℕ} (positive : 0 < align) :
    value ≤ alignUp value align ∧ alignUp value align < value + align ∧
      align ∣ alignUp value align := by
  refine ⟨le_alignUp value positive, ?_, Dvd.intro_left _ rfl⟩
  have below := Nat.div_mul_le_self (value + align - 1) align
  rw [alignUp]
  omega

theorem Placed.size {placement : Placement} {part : Section}
    (placed : Placed builder placement part) : part.contents.size = placement.part.contentSize := by
  have contents := placed.contents
  rw [MachOSection.contentSize]
  split at contents
  case isTrue zeros =>
    rw [contents, if_pos zeros]
    rfl
  case isFalse filled =>
    obtain ⟨bytes, made, isBytes⟩ := contents
    rw [isBytes, if_neg filled]
    exact length_relocated made

theorem consecutive_of_placed {cursor : ℕ} {order : List (MachOSection × ℕ)}
    (placed : Forall₂ (Placed builder) (place cursor order) sections) :
    Consecutive cursor sections := by
  induction order generalizing cursor sections with
  | nil =>
    rw [place] at placed
    cases placed
    trivial
  | cons item order ih =>
    rw [place] at placed
    cases placed with
    | cons first rest =>
      have isAlign : item.1.alignment = 2 ^ item.1.alignLog2.toNat := by
        rw [MachOSection.alignment, Nat.one_shiftLeft]
      obtain ⟨lower, upper, divides⟩ := alignUp_next cursor (alignment_pos item.1)
      have same := first.align
      dsimp only at same
      refine ⟨alignUp cursor item.1.alignment, lower, ?_, ?_, first.addr, ?_⟩
      · rwa [same, ← isAlign]
      · rwa [same, ← isAlign]
      · rw [first.size]
        exact ih rest

end Places

section Lossless

variable {bytes : List UInt8}

/-- A section that the writer placed is read with the ordinals and addresses of
the file. -/
theorem Placed.reads (few : builder.placements.length ≤ 255)
    (placed : Forall₂ (Placed builder) builder.placements sections) {placement : Placement}
    {part : Section} (here : Placed builder placement part) :
    Reads builder.order sections (placement.part, placement.id) part := by
  refine ⟨here.sectname, here.segname, here.align, here.flags, ?_, ?_⟩
  · have contents := here.contents
    dsimp only
    split at contents
    case isTrue zeros =>
      rw [if_pos zeros]
      exact contents
    case isFalse filled =>
      rw [if_neg filled]
      obtain ⟨result, made, isResult⟩ := contents
      refine ⟨result, isResult, ?_⟩
      rw [here.addr]
      exact foldlM_applyReloc_added few placed made
  · intro offset
    rw [here.relocations, map_map]
    apply map_congr_left
    intro reloc mem
    exact (viewReloc_eq few placed (here.targets reloc (mem_of_mem_filter mem))).symm

theorem found_of_groups {groups : Groups} (made : builder.groups = .ok groups) :
    ∀ symbol ∈ builder.symbols, ∃ place, find builder.placements symbol.sectionId = some place := by
  intro symbol mem
  rw [MachOBuilder.groups] at made
  cases mapped : builder.symbols.mapM (symbolEntry builder.placements) with
  | error message => simp [mapped, bind, Except.bind] at made
  | ok entries =>
    obtain ⟨index, inside, isSymbol⟩ := mem_iff_getElem.mp mem
    have entry := (mapM_ok mapped).get inside ((mapM_ok mapped).length_eq ▸ inside)
    rw [List.get_eq_getElem, isSymbol, symbolEntry] at entry
    cases found : find builder.placements symbol.sectionId with
    | none => simp [found] at entry
    | some place => exact ⟨place, rfl⟩

/-- Code with a call of an undefined function behind data of zeros; the data behind
it hold the address of the code and their distance from the zeros. -/
def callBuilder : MachOBuilder :=
  { sections := [
      { segname := text "__DATA", sectname := text "__bss", flags := 1, alignLog2 := 3
        zerofill := true, zerofillSize := 24 },
      { segname := text "__TEXT", sectname := text "__text", alignLog2 := 2
        bytes := [0, 0, 0, 0x94, 0xC0, 0x03, 0x5F, 0xD6]
        relocs := [{ symbol := text "_f", type := 2, pcrel := true }] },
      { segname := text "__DATA", sectname := text "__data", alignLog2 := 3
        bytes := [4, 0, 0, 0, 0, 0, 0, 0, 0, 0, 0, 0]
        relocs := [
          { sectionId := 2, length := 3, external := false },
          { offset := 8, sectionId := 0, type := 1, external := false
            sectionRelativeField := true }] }]
    symbols := [
      { name := text "_g", sectionId := 1, offsetInSection := 4, external := true },
      { name := text "_z", sectionId := 0, offsetInSection := 8 }]
    commons := [{ name := text "_c", size := 16, alignLog2 := 4 }] }

/-- Few sections with short names, and distinct names of symbols. -/
def MachOBuilder.Ordinary (builder : MachOBuilder) : Prop :=
  builder.placements.length ≤ 255 ∧ builder.definedNames.Nodup ∧
    ∀ part ∈ builder.sections, part.sectname.length ≤ 16 ∧ part.segname.length ≤ 16

instance (builder : MachOBuilder) : Decidable builder.Ordinary :=
  inferInstanceAs (Decidable (_ ∧ _))

/-- Something of the builder that a reader of the bytes can find. -/
def Readable {α : Type} (view : MachOBuilder → α) : Prop :=
  ∃ read : List UInt8 → α, ∀ (builder : MachOBuilder) (bytes : List UInt8), builder.Ordinary →
    builder.write = .ok bytes → read bytes = view builder

theorem not_readable {α : Type} {view : MachOBuilder → α} {builder builder' : MachOBuilder}
    {bytes : List UInt8} (ordinary : builder.Ordinary) (ordinary' : builder'.Ordinary)
    (written : builder.write = .ok bytes) (written' : builder'.write = .ok bytes)
    (differ : view builder ≠ view builder') : ¬Readable view := by
  rintro ⟨read, reads⟩
  have first := reads builder bytes ordinary written
  have second := reads builder' bytes ordinary' written'
  exact differ (first.symm.trans second)

/-- One symbol of the given name and one relocation of the given length. -/
def oneBuilder (name : Name) (length : UInt8) : MachOBuilder :=
  { sections := [{ segname := text "__DATA", sectname := text "__data", bytes := [0]
                   relocs := [{ symbol := name, length := length }] }]
    symbols := [{ name := name, sectionId := 0 }] }

end Lossless

end Aburi.Backend.MachO
