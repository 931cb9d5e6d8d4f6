import Aburi.Backend.MachOReader

/-!
# The contents of a Mach-O object

Addresses ascend in the order in which sections are placed, so that filling the
file up to an offset never finds the file beyond it.  Relocated bytes are as many
as the bytes of the section.
-/

namespace Aburi.Backend.MachO

open Aburi.Lib List

section Placing

theorem alignment_pos (part : MachOSection) : 0 < part.alignment := by
  rw [MachOSection.alignment, Nat.one_shiftLeft]
  exact Nat.two_pow_pos _

theorem le_alignUp (value : ℕ) {align : ℕ} (positive : 0 < align) :
    value ≤ alignUp value align := by
  have division := Nat.div_add_mod (value + align - 1) align
  have below := Nat.mod_lt (value + align - 1) positive
  rw [alignUp, mul_comm]
  omega

/-- One section ends before the other begins. -/
def EndsBefore (first second : Placement) : Prop :=
  first.addr + first.part.contentSize ≤ second.addr

attribute [local grind =] place

theorem le_addr_of_mem_place {cursor : ℕ} {order : List (MachOSection × ℕ)} :
    ∀ placement ∈ place cursor order, cursor ≤ placement.addr := by
  induction order generalizing cursor with
  | nil =>
    intro placement mem
    simp [place] at mem
  | cons item order ih =>
    intro placement mem
    have first := le_alignUp cursor (alignment_pos item.1)
    rw [place, mem_cons] at mem
    rcases mem with rfl | mem
    · exact first
    · exact first.trans ((Nat.le_add_right _ _).trans (ih placement mem))

theorem place_ordered (cursor : ℕ) (order : List (MachOSection × ℕ)) :
    (place cursor order).Pairwise EndsBefore := by
  induction order generalizing cursor with
  | nil => exact List.Pairwise.nil
  | cons item order ih =>
    rw [place]
    exact List.Pairwise.cons (fun placement mem => le_addr_of_mem_place placement mem)
      (ih _)

theorem place_map (cursor : ℕ) (order : List (MachOSection × ℕ)) :
    (place cursor order).map (fun placement => (placement.part, placement.id)) = order := by
  induction order generalizing cursor with
  | nil => rfl
  | cons item order ih => simp [place, ih]

variable {builder : MachOBuilder}

theorem mem_sections_of_placement {placement : Placement} (mem : placement ∈ builder.placements) :
    placement.part ∈ builder.sections ∧ 0 < placement.part.contentSize := by
  have inOrder : (placement.part, placement.id) ∈ builder.order := by
    rw [← place_map 0 builder.order]
    exact List.mem_map_of_mem mem
  rw [MachOBuilder.order, mem_append, mem_filter, mem_filter] at inOrder
  rcases inOrder with ⟨inSections, used⟩ | ⟨inSections, used⟩
  · exact ⟨fst_mem_of_mem_zipIdx inSections, by simpa using (Bool.and_eq_true_iff.mp used).2⟩
  · exact ⟨fst_mem_of_mem_zipIdx inSections, by simpa using (Bool.and_eq_true_iff.mp used).2⟩

end Placing

variable {offset : ℕ}

section Relocated

variable {placements : List Placement}

variable {contents : List UInt8}

theorem length_addToField {width : ℕ} (addend : ℤ) (inside : offset + width ≤ contents.length) :
    (addToField contents offset width addend).length = contents.length := by
  simp only [addToField, length_append, length_take, length_scalar, length_drop]
  omega

/-- A relocation that is applied leaves the contents alone, or its field is inside
them and gets the address of a section. -/
theorem applyReloc_ok {addr : ℕ} {contents' : List UInt8} {reloc : MachOReloc}
    (applied : applyReloc placements addr contents reloc = .ok contents') :
    reloc.addsAddress = false ∧ contents' = contents ∨
      reloc.addsAddress = true ∧ ∃ ordinal target,
        find placements reloc.sectionId = some (ordinal, target) ∧ 2 ^ reloc.length.toNat ≤ 8 ∧
        reloc.offset.toNat + 2 ^ reloc.length.toNat ≤ contents.length ∧
        contents' = addToField contents reloc.offset.toNat (2 ^ reloc.length.toNat)
          (if reloc.sectionRelativeField then (target : ℤ) - addr else target) := by
  unfold applyReloc at applied
  by_cases plain : (!reloc.addsAddress) = true
  · rw [if_pos plain] at applied
    exact .inl ⟨by simpa using plain, (Except.ok.inj applied).symm⟩
  · rw [if_neg plain] at applied
    refine .inr ⟨by simpa using plain, ?_⟩
    cases found : find placements reloc.sectionId with
    | none => simp [found] at applied
    | some place =>
      obtain ⟨ordinal, target⟩ := place
      simp only [found, Nat.one_shiftLeft] at applied
      by_cases outside : 8 < 2 ^ reloc.length.toNat ∨
          contents.length < reloc.offset.toNat + 2 ^ reloc.length.toNat
      · simp [if_pos outside] at applied
      · rw [if_neg outside] at applied
        rw [not_or, Nat.not_lt, Nat.not_lt] at outside
        exact ⟨ordinal, target, rfl, outside.1, outside.2, (Except.ok.inj applied).symm⟩

theorem length_applyReloc {addr : ℕ} {contents' : List UInt8} {reloc : MachOReloc}
    (applied : applyReloc placements addr contents reloc = .ok contents') :
    contents'.length = contents.length := by
  rcases applyReloc_ok applied with ⟨-, same⟩ | ⟨-, _, _, -, -, inside, isAdded⟩
  · rw [same]
  · rw [isAdded]
    exact length_addToField _ inside

theorem length_foldlM_applyReloc {addr : ℕ} {relocs : List MachOReloc} {contents' : List UInt8}
    (applied : relocs.foldlM (applyReloc placements addr) contents = .ok contents') :
    contents'.length = contents.length := by
  induction relocs generalizing contents with
  | nil => rw [← Except.ok.inj applied]
  | cons reloc relocs ih =>
    rw [foldlM_cons] at applied
    cases first : applyReloc placements addr contents reloc with
    | error message => simp [first, bind, Except.bind] at applied
    | ok between =>
      simp only [first, bind, Except.bind] at applied
      rw [ih applied, length_applyReloc first]

theorem length_relocated {placement : Placement}
    (applied : relocated placements placement = .ok contents) :
    contents.length = placement.part.bytes.length :=
  length_foldlM_applyReloc applied

end Relocated

variable {bytes : List UInt8} {rest : List Placement}

section Writing

variable {placements : List Placement} {dataStart : ℕ}

theorem length_fillTo (below : bytes.length ≤ offset) :
    (fillTo offset bytes).length = offset := by
  rw [fillTo, length_append, length_replicate]
  omega

/-- The running end of the contents. -/
def cursorAfter (dataStart cursor : ℕ) (rest : List Placement) : ℕ :=
  rest.foldl (fun cursor placement =>
    if placement.part.zerofill then cursor
    else dataStart + placement.addr + placement.part.bytes.length) cursor

/-- What the pass over the contents leaves: every block at its offset, and the file not beyond
the end that was computed before. -/
structure Written (placements : List Placement) (dataStart cursor : ℕ) (file file' : List UInt8)
    (rest : List Placement) : Prop where
  grows : file <+: file'
  block : ∀ placement ∈ rest, placement.part.zerofill = false →
    ∃ contents, relocated placements placement = .ok contents ∧
      HasAt file' (dataStart + placement.addr) contents
  length_le : file'.length ≤ cursorAfter dataStart cursor rest

theorem writeContents_written {cursor : ℕ} {file file' : List UInt8}
    (ordered : rest.Pairwise EndsBefore)
    (behind : ∀ placement ∈ rest, placement.part.zerofill = false →
      file.length ≤ dataStart + placement.addr) (below : file.length ≤ cursor)
    (written : writeContents placements dataStart file rest = .ok file') :
    Written placements dataStart cursor file file' rest := by
  induction rest generalizing file cursor with
  | nil =>
    rw [writeContents, Except.ok.injEq] at written
    subst written
    exact ⟨prefix_refl _, by simp, below⟩
  | cons placement rest ih =>
    obtain ⟨before, ordered⟩ := pairwise_cons.mp ordered
    rw [writeContents] at written
    by_cases zeros : placement.part.zerofill = true
    · rw [if_pos zeros] at written
      have after := ih ordered
        (fun other mem => behind other (mem_cons_of_mem _ mem)) below written
      refine ⟨after.grows, ?_, ?_⟩
      · intro other mem filled
        rcases mem_cons.mp mem with rfl | mem
        · simp [zeros] at filled
        · exact after.block other mem filled
      · have := after.length_le
        rwa [cursorAfter, foldl_cons, if_pos zeros]
    · rw [if_neg zeros] at written
      have filled : placement.part.zerofill = false := by simpa using zeros
      cases applied : relocated placements placement with
      | error message => simp [applied, bind, Except.bind] at written
      | ok contents =>
        simp only [applied, bind, Except.bind] at written
        have size := length_relocated applied
        have front := length_fillTo (behind placement (mem_cons_self ..) filled)
        have length : (fillTo (dataStart + placement.addr) file ++ contents).length =
            dataStart + placement.addr + placement.part.bytes.length := by
          rw [length_append, front, size]
        have after := @ih
          (dataStart + placement.addr + placement.part.bytes.length) _ ordered
          (fun other mem _ => by
            have ends := before other mem
            rw [EndsBefore, MachOSection.contentSize, if_neg zeros] at ends
            omega) length.le written
        refine ⟨?_, ?_, ?_⟩
        · exact (prefix_append _ _).trans ((prefix_append _ _).trans after.grows)
        · intro other mem otherFilled
          rcases mem_cons.mp mem with rfl | mem
          · refine ⟨contents, applied, ?_⟩
            have has := hasAt_end (fillTo (dataStart + other.addr) file) contents
            rw [front] at has
            exact has.grow after.grows
          · exact after.block other mem otherFilled
        · have := after.length_le
          rwa [cursorAfter, foldl_cons, if_neg zeros]

/-- The end of the contents is behind each of them. -/
theorem le_cursorAfter {cursor : ℕ} (ordered : rest.Pairwise EndsBefore)
    (behind : ∀ placement ∈ rest, cursor ≤ dataStart + placement.addr) :
    cursor ≤ cursorAfter dataStart cursor rest ∧
      ∀ placement ∈ rest, placement.part.zerofill = false →
        dataStart + placement.addr + placement.part.bytes.length ≤
          cursorAfter dataStart cursor rest := by
  induction rest generalizing cursor with
  | nil => exact ⟨le_rfl, by simp⟩
  | cons placement rest ih =>
    obtain ⟨before, ordered⟩ := pairwise_cons.mp ordered
    rw [cursorAfter, foldl_cons]
    by_cases zeros : placement.part.zerofill = true
    · rw [if_pos zeros]
      obtain ⟨first, others⟩ := @ih cursor ordered
        (fun other mem => behind other (mem_cons_of_mem _ mem))
      refine ⟨first, ?_⟩
      intro other mem filled
      rcases mem_cons.mp mem with rfl | mem
      · simp [zeros] at filled
      · exact others other mem filled
    · rw [if_neg zeros]
      have start := behind placement (mem_cons_self ..)
      obtain ⟨first, others⟩ := @ih
        (dataStart + placement.addr + placement.part.bytes.length) ordered
        (fun other mem => by
          have ends := before other mem
          rw [EndsBefore, MachOSection.contentSize, if_neg zeros] at ends
          omega)
      refine ⟨le_trans (by omega) first, ?_⟩
      intro other mem filled
      rcases mem_cons.mp mem with rfl | mem
      · exact first
      · exact others other mem filled

end Writing

section RelocOffsets

/-- The sections with the offsets of their relocations. -/
def withRelocOffsets : ℕ → List Placement → List (Placement × ℕ)
  | _, [] => []
  | offset, placement :: rest =>
    (placement, offset) :: withRelocOffsets (offset + placement.part.relocs.length * 8) rest

theorem withRelocOffsets_map (offset : ℕ) (placements : List Placement) :
    (withRelocOffsets offset placements).map Prod.fst = placements := by
  induction placements generalizing offset with
  | nil => rfl
  | cons placement rest ih => simp [withRelocOffsets, ih]

theorem sectionHeaders_eq (dataStart offset : ℕ) (placements : List Placement) :
    sectionHeaders dataStart offset placements =
      (withRelocOffsets offset placements).flatMap fun item =>
        sectionHeader dataStart item.2 item.1 := by
  induction placements generalizing offset with
  | nil => rfl
  | cons placement rest ih =>
    rw [sectionHeaders, withRelocOffsets, flatMap_cons, ih]

def relocTotal (placements : List Placement) : ℕ :=
  (placements.map (·.part.relocs.length)).sum

theorem relocOffsets_bounds {placements : List Placement} :
    ∀ item ∈ withRelocOffsets offset placements, offset ≤ item.2 ∧
      item.2 + item.1.part.relocs.length * 8 ≤ offset + relocTotal placements * 8 := by
  induction placements generalizing offset with
  | nil =>
    intro item mem
    simp [withRelocOffsets] at mem
  | cons placement rest ih =>
    intro item mem
    have total : relocTotal (placement :: rest) =
        placement.part.relocs.length + relocTotal rest := by
      simp [relocTotal]
    rw [total]
    rcases mem_cons.mp mem with rfl | mem
    · constructor
      · exact le_rfl
      · simp only
        omega
    · obtain ⟨low, high⟩ := ih item mem
      constructor <;> omega

theorem relocOffsets_ordered (offset : ℕ) (placements : List Placement) :
    (withRelocOffsets offset placements).Pairwise fun first second =>
      first.2 + first.1.part.relocs.length * 8 ≤ second.2 := by
  induction placements generalizing offset with
  | nil => exact List.Pairwise.nil
  | cons placement rest ih =>
    rw [withRelocOffsets]
    exact List.Pairwise.cons (fun item mem => (relocOffsets_bounds item mem).1)
      (ih _)

/-- The bytes of a relocation that was written. -/
def relocBytes (placements : List Placement) (symtab : List SymtabEntry) (reloc : MachOReloc) :
    List UInt8 :=
  (writeReloc placements symtab reloc).toOption.getD []

variable {symtab : List SymtabEntry}

theorem writeReloc_ok {placements : List Placement} {reloc : MachOReloc}
    (written : writeReloc placements symtab reloc = .ok bytes) :
    ∃ info, relocInfo placements symtab reloc = .ok info ∧
      bytes = writeFields .lsb [(4, reloc.offset.toNat), (4, info)] := by
  rw [writeReloc] at written
  cases found : relocInfo placements symtab reloc with
  | error message => simp [found, bind, Except.bind] at written
  | ok info =>
    simp only [found, bind, Except.bind, pure, Except.pure, Except.ok.injEq] at written
    exact ⟨info, rfl, written.symm⟩

theorem writeRelocs_ok {placements : List Placement} {relocs : List MachOReloc}
    (written : writeRelocs placements symtab relocs = .ok bytes) :
    bytes = relocs.flatMap (relocBytes placements symtab) ∧
      ∀ reloc ∈ relocs, ∃ info, relocInfo placements symtab reloc = .ok info ∧
        relocBytes placements symtab reloc =
          writeFields .lsb [(4, reloc.offset.toNat), (4, info)] := by
  induction relocs generalizing bytes with
  | nil =>
    rw [writeRelocs, Except.ok.injEq] at written
    exact ⟨written.symm, by simp⟩
  | cons reloc relocs ih =>
    rw [writeRelocs] at written
    cases first : writeReloc placements symtab reloc with
    | error message => simp [first, bind, Except.bind] at written
    | ok front =>
      cases rest : writeRelocs placements symtab relocs with
      | error message => simp [first, rest, bind, Except.bind] at written
      | ok others =>
        simp only [first, rest, bind, Except.bind, pure, Except.pure, Except.ok.injEq] at written
        obtain ⟨isOthers, infos⟩ := ih rest
        have isFront : relocBytes placements symtab reloc = front := by
          rw [relocBytes, first]
          rfl
        refine ⟨?_, ?_⟩
        · rw [← written, flatMap_cons, isFront, ← isOthers]
        · intro other mem
          rcases mem_cons.mp mem with rfl | mem
          · obtain ⟨info, found, isBytes⟩ := writeReloc_ok first
            exact ⟨info, found, isFront.trans isBytes⟩
          · exact infos other mem

theorem length_orderedRelocs (relocs : List MachOReloc) :
    (orderedRelocs relocs).length = relocs.length :=
  length_insertionSort _ _

/-- The relocations of every section stand at the offset in its header. -/
theorem writeAllRelocs_hasAt {placements : List Placement}
    (written : writeAllRelocs placements symtab rest = .ok bytes) {file : List UInt8}
    (has : HasAt file offset bytes) :
    bytes.length = relocTotal rest * 8 ∧ ∀ item ∈ withRelocOffsets offset rest,
      HasAt file item.2 ((orderedRelocs item.1.part.relocs).flatMap
        (relocBytes placements symtab)) ∧
      ∀ reloc ∈ item.1.part.relocs, ∃ info, relocInfo placements symtab reloc = .ok info ∧
        relocBytes placements symtab reloc =
          writeFields .lsb [(4, reloc.offset.toNat), (4, info)] := by
  induction rest generalizing bytes offset with
  | nil =>
    rw [writeAllRelocs, Except.ok.injEq] at written
    subst written
    exact ⟨rfl, by simp [withRelocOffsets]⟩
  | cons placement rest ih =>
    rw [writeAllRelocs] at written
    cases first : writeRelocs placements symtab (orderedRelocs placement.part.relocs) with
    | error message => simp [first, bind, Except.bind] at written
    | ok front =>
      cases others : writeAllRelocs placements symtab rest with
      | error message => simp [first, others, bind, Except.bind] at written
      | ok back =>
        simp only [first, others, bind, Except.bind, pure, Except.pure, Except.ok.injEq] at written
        subst written
        obtain ⟨isFront, infos⟩ := writeRelocs_ok first
        have frontSize : front.length = placement.part.relocs.length * 8 := by
          rw [isFront, length_flatMap_const fun reloc mem => ?_, length_orderedRelocs]
          obtain ⟨info, -, isBytes⟩ := infos reloc mem
          rw [isBytes, length_writeFields]
          rfl
        have behind := has.tail
        rw [frontSize] at behind
        obtain ⟨backSize, allHave⟩ := ih others behind
        refine ⟨?_, ?_⟩
        · rw [length_append, frontSize, backSize]
          simp only [relocTotal, map_cons, sum_cons]
          ring
        · intro item mem
          rcases mem_cons.mp mem with rfl | mem
          · refine ⟨isFront ▸ has.head, ?_⟩
            intro reloc isReloc
            exact infos reloc ((mem_insertionSort _).mpr isReloc)
          · exact allHave item mem

end RelocOffsets

end Aburi.Backend.MachO
