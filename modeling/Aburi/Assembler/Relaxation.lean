import Aburi.Assembler.FieldBytes

/-!
# Relaxation

What the sizes of alignment, LEB128 and branch fields promise in the final
layout, whatever addresses the linker gives to sections and to symbols of other
units.  A near branch keeps the promise exactly when the number in its field
fits into 32 bits and counts from a symbol of the target's section.
-/

namespace Aburi.Asm

open Assembler List Option Function Nat

/-- Where a linker puts the sections and the symbols of other units. -/
structure Placement where
  sections : ℕ → Word64
  external : SymId → Word64

def Placement.address (placement : Placement) (final : Assembler) (id : SymId) : Word64 :=
  let symbol := final.sym id
  match symbol.state with
  | .label => placement.sections symbol.sectionIndex + symbol.offset
  | .constant => symbol.value
  | .undefined => placement.external id

def Placement.part (placement : Placement) (final : Assembler) : Option SymId → Word64
  | none => 0
  | some id => placement.address final id

/-- The place of a field in the final section. -/
def placeOf (fields : List DeferredField) (index : ℕ) (field : DeferredField) : ℕ :=
  field.rawOffset + sizesBefore fields index

/-- The address that a branch names. -/
def Placement.target (placement : Placement) (final : Assembler) (field : DeferredField) :
    Word64 :=
  placement.address final (field.posSym.getD 0) + field.constant

/-- Where a near branch goes.  With a relocation the linker adds the symbol's
address to what stands in the field; an open reference has its addend beside the
field; otherwise the field counts from the end of the branch. -/
def Placement.landing (placement : Placement) (final : Assembler) (sectionIndex finish : ℕ)
    (branch : DeferredBranch) (expansion : Expansion) : Word64 :=
  let number := signedField ((expansion.bytes.drop branch.relOffset).take 4)
  match expansion.unresolved, expansion.relocs with
  | entry :: _, _ => placement.address final entry.symbol + entry.addend
  | [], entry :: _ => placement.address final entry.symbol + number
  | [], [] => placement.sections sectionIndex + BitVec.ofNat 64 finish + number

/-- A branch of two bytes lands on its target by a displacement of one byte. -/
structure ShortConsistent (final : Assembler) (sectionIndex place : ℕ) (field : DeferredField)
    (expansion : Expansion) : Prop where
  alone : expansion.relocs = [] ∧ expansion.unresolved = []
  lands : ∃ displacement : ℤ, -128 ≤ displacement ∧ displacement ≤ 127 ∧
    expansion.bytes = [field.branch.shortOpcode, UInt8.ofNat (displacement % 256).toNat] ∧
    ∀ placement : Placement, placement.sections sectionIndex + BitVec.ofNat 64 (place + 2) +
      BitVec.ofInt 64 displacement = placement.target final field

/-- A near branch keeps its opcode and lands on its target. -/
structure NearConsistent (final : Assembler) (sectionIndex place : ℕ) (field : DeferredField)
    (expansion : Expansion) : Prop where
  size : field.size = field.branch.nearBytes.length
  opcode : expansion.bytes.take field.branch.relOffset =
    field.branch.nearBytes.take field.branch.relOffset
  records : (∀ entry ∈ expansion.relocs, entry.kind = .branch32 ∧
      entry.offset = BitVec.ofNat 64 (place + field.branch.relOffset)) ∧
    ∀ entry ∈ expansion.unresolved, entry.kind = .branch32 ∧
      entry.offset = BitVec.ofNat 64 (place + field.branch.relOffset)
  lands : ∀ placement : Placement,
    placement.landing final sectionIndex (place + field.size) field.branch expansion =
      placement.target final field

/-- What the size and the bytes of a field promise. -/
def FieldConsistent (final : Assembler) (sectionIndex place : ℕ) (field : DeferredField)
    (expansion : Expansion) : Prop :=
  match field.kind with
  | .align =>
    (place + field.size) % 2 ^ field.alignLog2 = 0 ∧ field.size < 2 ^ field.alignLog2
  | .branch =>
    if field.size = 2 then ShortConsistent final sectionIndex place field expansion
    else NearConsistent final sectionIndex place field expansion
  | .uleb | .sleb =>
    ∀ placement : Placement,
      expansion.bytes = lebBytes field.kind (field.constant +
        placement.part final field.posSym - placement.part final field.negSym) ∧
      field.size = (lebBytes field.kind (field.constant +
        placement.part final field.posSym - placement.part final field.negSym)).length

/-- A field as its statement recorded it. -/
def recorded (field : DeferredField) : DeferredField :=
  { field with size := 0, branch := { field.branch with patchable := false } }

/-- The layout has the fields of the section and all of them are consistent. -/
structure FieldsConsistent (final : Assembler) (sectionIndex : ℕ) (deferred : List DeferredField)
    (layout : Layout) : Prop where
  same : layout.fields.map recorded = deferred.map recorded
  each : ∀ index field expansion, layout.fields[index]? = some field →
    layout.expansions[index]? = some expansion →
    FieldConsistent final sectionIndex (placeOf layout.fields index field) field expansion

/-- Bytes, symbols, fixups and records of a section agree with the sizes. -/
structure PositionsAgree (before final : Assembler) (sectionIndex : ℕ) (layout : Layout) : Prop where
  bytes : BytesAgree (before.sections.getD sectionIndex default).bytes
    (final.sections.getD sectionIndex default).bytes layout.fields layout.chunks
  symbols : ∀ id, (before.sym id).state = .label → (before.sym id).sectionIndex = sectionIndex →
    final.sym id =
      { before.sym id with
        offset := moved layout.fields (before.sym id).offset (before.sym id).deferredSeq }
  fixups : (final.sections.getD sectionIndex default).fixups =
    (before.sections.getD sectionIndex default).fixups.map fun fixup =>
      { fixup with offset := moved layout.fields fixup.offset fixup.deferredSeq }
  records : (final.sections.getD sectionIndex default).relocs =
      (before.sections.getD sectionIndex default).relocs ++
        layout.expansions.flatMap Expansion.relocs ∧
    (final.sections.getD sectionIndex default).unresolved =
      (before.sections.getD sectionIndex default).unresolved ++
        layout.expansions.flatMap Expansion.unresolved

/-- The expansion is consistent in every section. -/
def Consistent (before final : Assembler) (layouts : List Layout) : Prop :=
  ∀ index < before.sections.length,
    PositionsAgree before final index (layouts.getD index {}) ∧
      FieldsConsistent final index (before.sections.getD index default).deferred
        (layouts.getD index {})

/-- Fields as the statements push them: in order inside the bytes, and a branch
has a hole of four bytes behind its opcode. -/
def Formed (assembler : Assembler) : Prop :=
  ∀ part ∈ assembler.sections, Between 0 part.bytes.length (offsetsOf part.deferred) ∧
    ∀ field ∈ part.deferred, field.kind = .branch →
      0 < field.branch.relOffset ∧ field.branch.relOffset + 4 = field.branch.nearBytes.length

namespace Assembler

/-- The fields of a section before the first round. -/
def startedFields (options : AsmOptions) (assembler : Assembler) (sectionIndex : ℕ) :
    List DeferredField :=
  (assembler.sections.getD sectionIndex default).deferred.mapIdx
    (startField options assembler sectionIndex (assembler.rawAtoms options sectionIndex))

/-- The sizes that the relaxation settles on. -/
def settledFields (options : AsmOptions) (assembler : Assembler) (sectionIndex : ℕ) :
    Option (List DeferredField) :=
  let started := startedFields options assembler sectionIndex
  if (assembler.sections.getD sectionIndex default).deferred.isEmpty then some []
  else assembler.relax sectionIndex (started.length * 2 + 8) started

/-- The number in a near branch fits: the distance from its end to a target that
is patched in place, the addend of a symbol of its own, or the distance from an
atom of the same section. -/
def branchReaches (options : AsmOptions) (assembler : Assembler) (sectionIndex : ℕ)
    (fields : List DeferredField) (index : ℕ) (field : DeferredField) : Bool :=
  let targetId := field.posSym.getD 0
  let target := assembler.sym targetId
  let position := fun id => ((assembler.symbolFinal sectionIndex fields id).map Prod.fst).getD 0
  if field.branch.patchable then
    field.size == 2 || fitsSigned 32
      (branchDelta (position targetId) field.constant (placeOf fields index field + field.size))
  else if target.state == .undefined then options.fragmentMode || fitsSigned 32 field.constant
  else if canBeRelocTarget options target then fitsSigned 32 field.constant
  else
    match enclosingAtom (assembler.rawAtoms options sectionIndex) target.offset
        target.deferredSeq with
    | none => true
    | some atom =>
      target.sectionIndex == sectionIndex &&
        fitsSigned 32 (field.constant + position targetId - position atom)

def sectionReaches (options : AsmOptions) (assembler : Assembler) (sectionIndex : ℕ) : Bool :=
  match assembler.settledFields options sectionIndex with
  | none => true
  | some fields =>
    (List.range fields.length).all fun index =>
      (fields[index]?).all fun field =>
        field.kind != .branch || branchReaches options assembler sectionIndex fields index field

def reachesAll (options : AsmOptions) : List ℕ → Assembler → Bool
  | [], _ => true
  | index :: rest, assembler =>
    sectionReaches options assembler index &&
      match assembler.layoutSection options index with
      | none => true
      | some layout => reachesAll options rest (assembler.applyLayout index layout)

end Assembler

section Forms

variable {branch : DeferredBranch} {distance : Word64}

theorem nearForm_opcode (hole : branch.relOffset + 4 ≤ branch.nearBytes.length) :
    (nearForm branch distance).take branch.relOffset = branch.nearBytes.take branch.relOffset := by
  have front : (branch.nearBytes.take branch.relOffset).length = branch.relOffset := by
    rw [length_take]
    omega
  rw [nearForm, List.append_assoc, take_append_of_le_length front.ge]
  exact take_of_length_le front.le

theorem nearForm_hole (hole : branch.relOffset + 4 ≤ branch.nearBytes.length) :
    ((nearForm branch distance).drop branch.relOffset).take 4 = littleEndian 4 distance := by
  have front : (branch.nearBytes.take branch.relOffset).length = branch.relOffset := by
    rw [length_take]
    omega
  have four : (littleEndian 4 distance).length = 4 := by simp [littleEndian]
  have whole : (littleEndian 4 distance).take (branch.nearBytes.length - branch.relOffset) =
      littleEndian 4 distance := by
    apply take_of_length_le
    omega
  rw [nearForm, whole, List.append_assoc, drop_left' front, take_append_of_le_length four.ge]
  exact take_of_length_le four.le

end Forms

/-- What the expansion of a section computes with agrees with the final symbols. -/
structure Seen (assembler final : Assembler) (sectionIndex : ℕ) (fields : List DeferredField) :
    Prop where
  state : ∀ id, (final.sym id).state = (assembler.sym id).state
  inSection : ∀ id, (final.sym id).sectionIndex = (assembler.sym id).sectionIndex
  value : ∀ id, (final.sym id).value = (assembler.sym id).value
  own : ∀ id, (assembler.sym id).state = .label → (assembler.sym id).sectionIndex = sectionIndex →
    (final.sym id).offset = moved fields (assembler.sym id).offset (assembler.sym id).deferredSeq
  others : ∀ id, (assembler.sym id).sectionIndex ≠ sectionIndex →
    (assembler.sections.getD (assembler.sym id).sectionIndex default).deferred.isEmpty = true →
    (final.sym id).offset = (assembler.sym id).offset

/-- The address at which a section starts; a constant has none. -/
def Placement.base (placement : Placement) : Option ℕ → Word64
  | none => 0
  | some index => placement.sections index

variable {position : Word64}

section Addresses

variable {assembler final : Assembler} {sectionIndex : ℕ} {fields : List DeferredField}

variable {inPart : Option ℕ}

section

variable (seen : Seen assembler final sectionIndex fields)
include seen

theorem symbolFinal_address {id : SymId}
    (isFinal : assembler.symbolFinal sectionIndex fields id = some (position, inPart))
    (placement : Placement) :
    placement.address final id = placement.base inPart + position := by
  rw [symbolFinal] at isFinal
  rw [Placement.address]
  dsimp only at isFinal ⊢
  rw [seen.state, seen.inSection, seen.value]
  cases isState : (assembler.sym id).state with
  | undefined =>
    rw [isState] at isFinal
    cases isFinal
  | constant =>
    rw [isState] at isFinal
    cases isFinal
    rw [Placement.base]
    simp
  | label =>
    rw [isState] at isFinal
    dsimp only at isFinal ⊢
    split at isFinal
    case isTrue here =>
      cases isFinal
      rw [seen.own id isState here]
      rfl
    case isFalse elsewhere =>
      split at isFinal
      case isTrue noFields =>
        cases isFinal
        rw [seen.others id elsewhere noFields]
        rfl
      case isFalse => cases isFinal

theorem symbolPart_address {symbol : Option SymId}
    (isFinal : assembler.symbolPart sectionIndex fields symbol = some (position, inPart))
    (placement : Placement) :
    placement.part final symbol = placement.base inPart + position := by
  cases symbol with
  | none =>
    cases isFinal
    rw [Placement.part, Placement.base]
    rfl
  | some id => exact symbolFinal_address seen isFinal placement

theorem lebValue_final {field : DeferredField} {value : Word64}
    (isValue : assembler.lebValue sectionIndex fields field = some value) (placement : Placement) :
    field.constant + placement.part final field.posSym - placement.part final field.negSym =
      value := by
  rw [lebValue] at isValue
  simp only [bind_eq_bind, bind_eq_some_iff] at isValue
  obtain ⟨⟨pos, posPart⟩, isPos, ⟨neg, negPart⟩, isNeg, isValue⟩ := isValue
  dsimp only at isValue
  split at isValue
  case isTrue => cases isValue
  case isFalse samePart =>
    rw [not_not] at samePart
    subst samePart
    cases isValue
    rw [symbolPart_address seen isPos, symbolPart_address seen isNeg]
    generalize placement.base posPart = start
    bv_omega

end

theorem symbolFinal_own {id : SymId} (isLabel : (assembler.sym id).state = .label)
    (here : (assembler.sym id).sectionIndex = sectionIndex) :
    ∃ position, assembler.symbolFinal sectionIndex fields id =
      some (position, some sectionIndex) := by
  rw [symbolFinal]
  dsimp only
  rw [isLabel]
  dsimp only
  rw [if_pos here, here]
  exact ⟨_, rfl⟩

theorem symbolFinal_label {id : SymId} (isLabel : (assembler.sym id).state = .label)
    (isFinal : assembler.symbolFinal sectionIndex fields id = some (position, inPart)) :
    inPart = some (assembler.sym id).sectionIndex := by
  rw [symbolFinal] at isFinal
  dsimp only at isFinal
  rw [isLabel] at isFinal
  dsimp only at isFinal
  split at isFinal
  · cases isFinal
    rfl
  · split at isFinal
    · cases isFinal
      rfl
    · cases isFinal

theorem enclosingAtom_own {options : AsmOptions} {offset : Word64} {seq : ℕ} {atom : SymId}
    (isAtom : enclosingAtom (assembler.rawAtoms options sectionIndex) offset seq = some atom) :
    (assembler.sym atom).state = .label ∧ (assembler.sym atom).sectionIndex = sectionIndex := by
  rw [enclosingAtom] at isAtom
  obtain ⟨entry, isLast, rfl⟩ := map_eq_some_iff.mp isAtom
  have member := (takeWhile_sublist _).subset (mem_of_getLast? isLast)
  rw [rawAtoms, mem_mergeSort] at member
  obtain ⟨id, labelled, rfl⟩ := List.mem_map.mp member
  have conditions := (mem_filter.mp labelled).2
  simp only [Bool.and_eq_true, beq_iff_eq] at conditions
  exact conditions.1

end Addresses

section Branches

variable {options : AsmOptions} {assembler final : Assembler} {sectionIndex index : ℕ}
  {fields : List DeferredField} {field : DeferredField} {expansion : Expansion}

theorem size_two (hole : 2 < field.branch.nearBytes.length) (isBranch : field.kind = .branch)
    (short : field.size = 2)
    (stable : assembler.newSize sectionIndex fields index field = some field.size) :
    ∃ position inPart,
      assembler.symbolFinal sectionIndex fields (field.posSym.getD 0) = some (position, inPart) ∧
      -128 ≤ (branchDelta position field.constant (placeOf fields index field + 2)).toInt ∧
      (branchDelta position field.constant (placeOf fields index field + 2)).toInt ≤ 127 := by
  simp only [newSize, isBranch, short] at stable
  rw [if_neg (by omega)] at stable
  split at stable
  case h_1 =>
    have isSize := Option.some.inj stable
    omega
  case h_2 position inPart isFinal =>
    refine ⟨position, inPart, isFinal, ?_⟩
    by_contra outside
    rw [placeOf] at outside
    have isSize := Option.some.inj stable
    rw [if_neg outside] at isSize
    omega

theorem size_near (isBranch : field.kind = .branch) (long : field.size ≠ 2)
    (stable : assembler.newSize sectionIndex fields index field = some field.size) :
    field.size = field.branch.nearBytes.length := by
  simp only [newSize, isBranch] at stable
  split at stable
  · exact (Option.some.inj stable).symm
  · split at stable
    · exact (Option.some.inj stable).symm
    · have isSize := Option.some.inj stable
      split at isSize
      · exact absurd isSize.symm long
      · exact isSize.symm

/-- A branch that is patched in place has its target in the section. -/
def TargetsOwn (assembler : Assembler) (sectionIndex : ℕ) (field : DeferredField) : Prop :=
  field.branch.patchable = true →
    (assembler.sym (field.posSym.getD 0)).state = .label ∧
      (assembler.sym (field.posSym.getD 0)).sectionIndex = sectionIndex

theorem short_consistent (seen : Seen assembler final sectionIndex fields)
    (hole : 2 < field.branch.nearBytes.length) (isBranch : field.kind = .branch)
    (sized : BranchSized field) (own : TargetsOwn assembler sectionIndex field)
    (stable : assembler.newSize sectionIndex fields index field = some field.size)
    (short : field.size = 2)
    (expanded : expandBranch options assembler sectionIndex
      (assembler.rawAtoms options sectionIndex) fields index field = some expansion) :
    field.branch.patchable = true ∧
      ShortConsistent final sectionIndex (placeOf fields index field) field expansion := by
  have patchable : field.branch.patchable = true := by
    rcases sized isBranch with patchable | atLeast
    · exact patchable
    · omega
  obtain ⟨position, inPart, isFinal, low, high⟩ := size_two hole isBranch short stable
  obtain ⟨isLabel, here⟩ := own patchable
  have isPart := symbolFinal_label isLabel isFinal
  subst isPart
  rw [expandBranch] at expanded
  dsimp only at expanded
  rw [if_pos patchable, if_pos short, isFinal, map_some, getD_some, short] at expanded
  cases expanded
  refine ⟨patchable, ⟨rfl, rfl⟩, _, low, high, ?_, fun placement => ?_⟩
  · -- a byte does not see the sign
    have sameByte : ((branchDelta position field.constant (placeOf fields index field + 2)).toInt %
        256).toNat = (branchDelta position field.constant
          (placeOf fields index field + 2)).toNat % 256 := by
      rw [BitVec.toInt_eq_toNat_cond]
      split <;> omega
    rw [sameByte]
    rfl
  · rw [BitVec.ofInt_toInt, Placement.target, symbolFinal_address seen isFinal, Placement.base,
      here, branchDelta]
    bv_omega

theorem nearConsistent_iff {place : ℕ} {distance : Word64}
    (size : field.size = field.branch.nearBytes.length)
    (hole : field.branch.relOffset + 4 ≤ field.branch.nearBytes.length)
    (isBytes : expansion.bytes = nearForm field.branch distance)
    (relocs : ∀ entry ∈ expansion.relocs, entry.kind = .branch32 ∧
      entry.offset = BitVec.ofNat 64 (place + field.branch.relOffset))
    (unresolved : ∀ entry ∈ expansion.unresolved, entry.kind = .branch32 ∧
      entry.offset = BitVec.ofNat 64 (place + field.branch.relOffset)) :
    NearConsistent final sectionIndex place field expansion ↔
      ∀ placement : Placement,
        placement.landing final sectionIndex (place + field.size) field.branch expansion =
          placement.target final field := by
  constructor
  · exact NearConsistent.lands
  · intro lands
    refine ⟨size, ?_, ⟨relocs, unresolved⟩, lands⟩
    rw [isBytes]
    exact nearForm_opcode hole

theorem signedField_hole {branch : DeferredBranch} {distance : Word64}
    (hole : branch.relOffset + 4 ≤ branch.nearBytes.length) :
    signedField (((nearForm branch distance).drop branch.relOffset).take 4) = distance ↔
      fitsSigned 32 distance = true := by
  rw [nearForm_hole hole]
  exact signedField_littleEndian distance (by decide) (by decide)

/-- One placement tells a sum of numbers apart. -/
theorem forall_placement {left right : Word64} {start : Placement → Word64} :
    (∀ placement, start placement + left = start placement + right) ↔ left = right := by
  constructor
  · intro all
    have same := all ⟨fun _ => 0, fun _ => 0⟩
    exact BitVec.add_right_inj _ |>.mp same
  · rintro rfl placement
    rfl

theorem inPlace_lands (seen : Seen assembler final sectionIndex fields) {finish : ℕ}
    (hole : field.branch.relOffset + 4 ≤ field.branch.nearBytes.length)
    (isFinal : assembler.symbolFinal sectionIndex fields (field.posSym.getD 0) =
      some (position, some sectionIndex)) :
    (∀ placement : Placement, placement.landing final sectionIndex finish field.branch
        { bytes := nearForm field.branch (branchDelta position field.constant finish) } =
        placement.target final field) ↔
      fitsSigned 32 (branchDelta position field.constant finish) = true := by
  rw [← signedField_hole hole]
  generalize isDelta : branchDelta position field.constant finish = delta
  rw [branchDelta] at isDelta
  constructor
  · intro lands
    have lands := lands ⟨fun _ => 0, fun _ => 0⟩
    rw [Placement.target, symbolFinal_address seen isFinal] at lands
    simp only [Placement.landing, Placement.base] at lands
    bv_omega
  · intro same placement
    rw [Placement.target, symbolFinal_address seen isFinal]
    simp only [Placement.landing, Placement.base, same]
    bv_omega

theorem relocated_lands (hole : field.branch.relOffset + 4 ≤ field.branch.nearBytes.length)
    {finish : ℕ} {offset : Word64} :
    (∀ placement : Placement, placement.landing final sectionIndex finish field.branch
        { bytes := nearForm field.branch field.constant
          relocs := [{ offset, kind := .branch32, symbol := field.posSym.getD 0 }] } =
        placement.target final field) ↔ fitsSigned 32 field.constant = true := by
  rw [← signedField_hole hole]
  exact forall_placement

theorem atom_lands (seen : Seen assembler final sectionIndex fields) {label : Word64} {atom : SymId}
    {labelPart finish : ℕ} {offset : Word64}
    (hole : field.branch.relOffset + 4 ≤ field.branch.nearBytes.length)
    (isLabel : assembler.symbolFinal sectionIndex fields (field.posSym.getD 0) =
      some (label, some labelPart)) (isAtom : assembler.symbolFinal sectionIndex fields atom =
      some (position, some sectionIndex)) :
    (∀ placement : Placement, placement.landing final sectionIndex finish field.branch
        { bytes := nearForm field.branch (field.constant + label - position)
          relocs := [{ offset, kind := .branch32, symbol := atom }] } =
        placement.target final field) ↔
      labelPart = sectionIndex ∧ fitsSigned 32 (field.constant + label - position) = true := by
  rw [← signedField_hole hole]
  generalize isAddend : field.constant + label - position = addend
  generalize isNumber : signedField (((nearForm field.branch addend).drop
    field.branch.relOffset).take 4) = number
  have landing : ∀ placement : Placement, placement.landing final sectionIndex finish field.branch
      { bytes := nearForm field.branch addend
        relocs := [{ offset, kind := .branch32, symbol := atom }] } =
      placement.sections sectionIndex + position + number := by
    intro placement
    simp only [Placement.landing, symbolFinal_address seen isAtom, isNumber, Placement.base]
  have target : ∀ placement : Placement, placement.target final field =
      placement.sections labelPart + label + field.constant := by
    intro placement
    rw [Placement.target, symbolFinal_address seen isLabel, Placement.base]
  constructor
  · intro lands
    have first := lands ⟨fun _ => 0, fun _ => 0⟩
    have second := lands ⟨update (fun _ => 0) labelPart 1, fun _ => 0⟩
    rw [landing, target] at first second
    dsimp only at first second
    rw [update_self] at second
    have samePart : labelPart = sectionIndex := by
      by_contra other
      rw [update_of_ne (Ne.symm other)] at second
      bv_omega
    refine ⟨samePart, ?_⟩
    bv_omega
  · rintro ⟨rfl, rfl⟩ placement
    rw [landing, target]
    bv_omega

theorem near_consistent_iff (seen : Seen assembler final sectionIndex fields)
    (hole : field.branch.relOffset + 4 ≤ field.branch.nearBytes.length)
    (isBranch : field.kind = .branch) (own : TargetsOwn assembler sectionIndex field)
    (stable : assembler.newSize sectionIndex fields index field = some field.size)
    (long : field.size ≠ 2)
    (expanded : expandBranch options assembler sectionIndex
      (assembler.rawAtoms options sectionIndex) fields index field = some expansion) :
    NearConsistent final sectionIndex (placeOf fields index field) field expansion ↔
      branchReaches options assembler sectionIndex fields index field = true := by
  have size := size_near isBranch long stable
  rw [TargetsOwn] at own
  rw [expandBranch] at expanded
  rw [branchReaches]
  dsimp only at expanded ⊢
  set id := field.posSym.getD 0 with isId
  set target := assembler.sym id with isTarget
  by_cases patchable : field.branch.patchable = true
  · obtain ⟨isLabel, here⟩ := own patchable
    obtain ⟨position, isFinal⟩ := @symbolFinal_own _ _ fields _ isLabel here
    rw [if_pos patchable, if_neg long, isFinal, map_some, getD_some] at expanded
    rw [if_pos patchable, isFinal, map_some, getD_some, beq_eq_false_iff_ne.mpr long, Bool.false_or]
    cases expanded
    rw [nearConsistent_iff size hole rfl (by simp) (by simp)]
    exact inPlace_lands seen hole isFinal
  rw [if_neg patchable] at expanded ⊢
  -- a relocation or an open reference stands at the hole
  by_cases isOpen : (options.fragmentMode && target.state == .undefined) = true
  · rw [if_pos isOpen] at expanded
    rw [Bool.and_eq_true] at isOpen
    rw [if_pos isOpen.2, isOpen.1, Bool.true_or]
    cases expanded
    rw [nearConsistent_iff size hole rfl (by simp) (by simp [placeOf])]
    exact iff_of_true (fun _ => rfl) rfl
  rw [if_neg isOpen] at expanded
  by_cases missing : target.state = .undefined ∧ target.internal = true
  · rw [if_pos missing] at expanded
    cases expanded
  rw [if_neg missing] at expanded
  by_cases isConstant : target.state = .constant
  · rw [if_pos isConstant] at expanded
    cases expanded
  rw [if_neg isConstant] at expanded
  by_cases isLocal : target.state = .label ∧ (!canBeRelocTarget options target) = true
  · rw [if_pos isLocal] at expanded
    obtain ⟨isLabel, notTarget⟩ := isLocal
    rw [Bool.not_eq_true'] at notTarget
    rw [isLabel, notTarget, if_neg (by decide), if_neg (by decide)]
    cases isAtom : enclosingAtom (assembler.rawAtoms options sectionIndex)
        target.offset
        target.deferredSeq with
    | none =>
      rw [isAtom] at expanded
      cases expanded
    | some atom =>
      rw [isAtom] at expanded
      dsimp only at expanded
      obtain ⟨atomLabel, atomHere⟩ := enclosingAtom_own isAtom
      obtain ⟨position, atomFinal⟩ := @symbolFinal_own _ _ fields _ atomLabel atomHere
      rw [atomFinal] at expanded
      cases labelFinal : assembler.symbolFinal sectionIndex fields id with
      | none =>
        rw [labelFinal] at expanded
        cases expanded
      | some found =>
        obtain ⟨label, inPart⟩ := found
        have isPart := symbolFinal_label isLabel labelFinal
        subst isPart
        rw [labelFinal] at expanded
        cases expanded
        rw [nearConsistent_iff size hole rfl (by simp [placeOf]) (by simp),
          atom_lands seen hole labelFinal atomFinal]
        simp only [atomFinal, map_some, getD_some, Bool.and_eq_true, beq_iff_eq, isTarget]
  · rw [if_neg isLocal] at expanded
    cases expanded
    rw [nearConsistent_iff size hole rfl (by simp [placeOf]) (by simp), relocated_lands hole]
    cases isState : target.state with
    | constant => exact absurd isState isConstant
    | undefined =>
      rw [isState, BEq.rfl, Bool.and_true, Bool.not_eq_true] at isOpen
      rw [if_pos BEq.rfl, isOpen, Bool.false_or]
    | label =>
      rw [isState] at isLocal
      have isTarget : canBeRelocTarget options target = true := by
        by_contra notTarget
        rw [Bool.not_eq_true] at notTarget
        exact isLocal ⟨rfl, by rw [notTarget]; rfl⟩
      rw [if_neg (by decide), if_pos isTarget]

end Branches

section Fields

variable {options : AsmOptions} {assembler final : Assembler} {sectionIndex : ℕ}

theorem settledFields_settled {fields : List DeferredField}
    (isSettled : assembler.settledFields options sectionIndex = some fields) :
    (fields.map fun field => { field with size := 0 }) =
        ((startedFields options assembler sectionIndex).map fun field => { field with size := 0 }) ∧
      (∀ field ∈ fields, BranchSized field) ∧
      ∀ index field, fields[index]? = some field →
        assembler.newSize sectionIndex fields index field = some field.size := by
  rw [settledFields] at isSettled
  split at isSettled
  case isTrue noFields =>
    cases isSettled
    rw [List.isEmpty_iff] at noFields
    rw [startedFields, noFields]
    refine ⟨rfl, ?_, ?_⟩
    · intro field member
      cases member
    · intro index field isField
      cases isField
  case isFalse =>
    have settled := relax_settled (by
      intro field member
      obtain ⟨index, small, rfl⟩ := mem_mapIdx.mp member
      exact startField_branchSized _ _ _ _ _ _) isSettled
    exact ⟨relax_map (fun _ _ => rfl) isSettled, settled.branches, settled.stable⟩

theorem layoutSection_eq :
    assembler.layoutSection options sectionIndex =
      (assembler.settledFields options sectionIndex).bind fun fields =>
        ((List.range fields.length).mapM fun index =>
          (fields[index]?).bind fun field =>
            expandField options assembler sectionIndex (assembler.rawAtoms options sectionIndex)
              fields index field).map fun expansions => { fields, expansions } := by
  rw [layoutSection, settledFields]
  dsimp only
  split
  case isTrue => rfl
  case isFalse =>
    simp only [bind_eq_bind, map_eq_bind]
    rfl

theorem recorded_startField {atoms : List (ℕ × ℕ × SymId)} {index : ℕ} {field : DeferredField} :
    recorded (startField options assembler sectionIndex atoms index field) = recorded field := by
  rw [startField]
  split <;> rfl

theorem recorded_eq {field original : DeferredField} (same : recorded field = recorded original) :
    field.kind = original.kind ∧ field.branch.relOffset = original.branch.relOffset ∧
      field.branch.nearBytes = original.branch.nearBytes := by
  cases field
  cases original
  simp only [recorded, DeferredField.mk.injEq, DeferredBranch.mk.injEq] at same
  exact ⟨same.1, same.2.2.2.2.2.2.2.2.1.2.2.1, same.2.2.2.2.2.2.2.2.1.2.1⟩

theorem settled_field {fields : List DeferredField} {index : ℕ} {field : DeferredField}
    (same : fields.map (fun field => { field with size := 0 }) =
        (startedFields options assembler sectionIndex).map fun field => { field with size := 0 })
    (isField : fields[index]? = some field) :
    ∃ original ∈ (assembler.sections.getD sectionIndex default).deferred,
      field = { startField options assembler sectionIndex
        (assembler.rawAtoms options sectionIndex) index original with size := field.size } := by
  have entry := congrArg (fun list => list[index]?) same
  simp only [startedFields, getElem?_map, isField, map_some, getElem?_mapIdx] at entry
  cases isOriginal : (assembler.sections.getD sectionIndex default).deferred[index]? with
  | none =>
    rw [isOriginal] at entry
    cases entry
  | some original =>
    rw [isOriginal, map_some, map_some, Option.some.injEq] at entry
    refine ⟨original, mem_of_getElem? isOriginal, ?_⟩
    have sized := congrArg (fun entry => { entry with size := field.size }) entry
    exact sized

theorem startField_targetsOwn {atoms : List (ℕ × ℕ × SymId)} {index size : ℕ}
    {field : DeferredField} (isBranch : field.kind = .branch) :
    TargetsOwn assembler sectionIndex
      { startField options assembler sectionIndex atoms index field with size } := by
  intro patchable
  rw [startField, if_neg (not_not.mpr isBranch)] at patchable ⊢
  simp only [Bool.and_eq_true, beq_iff_eq] at patchable
  exact patchable.1

theorem align_consistent (place alignLog2 : ℕ) :
    (place + (2 ^ alignLog2 - place % 2 ^ alignLog2) % 2 ^ alignLog2) % 2 ^ alignLog2 = 0 ∧
      (2 ^ alignLog2 - place % 2 ^ alignLog2) % 2 ^ alignLog2 < 2 ^ alignLog2 := by
  have positive := Nat.two_pow_pos alignLog2
  refine ⟨?_, mod_lt _ positive⟩
  have below := mod_lt place positive
  have split := div_add_mod place (2 ^ alignLog2)
  generalize 2 ^ alignLog2 = alignment at positive below split ⊢
  rw [add_mod_mod, ← Nat.add_sub_assoc below.le]
  have multiple : place + alignment - place % alignment =
      alignment * (place / alignment) + alignment := by omega
  rw [multiple, ← mul_succ, mul_mod_right]

theorem fieldConsistent_iff {fields : List DeferredField} {index : ℕ} {field : DeferredField}
    {expansion : Expansion} (seen : Seen assembler final sectionIndex fields)
    (formed : field.kind = .branch →
      0 < field.branch.relOffset ∧ field.branch.relOffset + 4 = field.branch.nearBytes.length)
    (sized : BranchSized field)
    (own : field.kind = .branch → TargetsOwn assembler sectionIndex field)
    (stable : assembler.newSize sectionIndex fields index field = some field.size)
    (expanded : expandField options assembler sectionIndex
      (assembler.rawAtoms options sectionIndex) fields index field = some expansion) :
    FieldConsistent final sectionIndex (placeOf fields index field) field expansion ↔
      (field.kind != .branch ||
        branchReaches options assembler sectionIndex fields index field) = true := by
  have leb : field.kind = .uleb ∨ field.kind = .sleb → ∀ placement : Placement,
      expansion.bytes = lebBytes field.kind (field.constant +
        placement.part final field.posSym - placement.part final field.negSym) ∧
      field.size = (lebBytes field.kind (field.constant +
        placement.part final field.posSym - placement.part final field.negSym)).length := by
    intro isLeb placement
    obtain ⟨value, isValue, isBytes, size⟩ := expandField_leb isLeb stable expanded
    rw [lebValue_final seen isValue]
    exact ⟨isBytes, size⟩
  rw [FieldConsistent.eq_def]
  cases kind : field.kind with
  | align =>
    simp only [newSize, kind, Option.some.injEq] at stable
    dsimp only
    refine iff_of_true ?_ rfl
    rw [← stable]
    exact align_consistent _ _
  | branch =>
    obtain ⟨positive, hole⟩ := formed kind
    simp only [expandField, kind] at expanded
    simp only [bne_self_eq_false, Bool.false_or]
    by_cases short : field.size = 2
    · obtain ⟨patchable, consistent⟩ :=
        short_consistent seen (by omega) kind sized (own kind) stable short expanded
      rw [if_pos short]
      refine iff_of_true consistent ?_
      rw [branchReaches]
      dsimp only
      rw [if_pos patchable, short]
      rfl
    · rw [if_neg short]
      exact near_consistent_iff seen hole.le kind (own kind) stable short expanded
  | uleb =>
    rw [kind] at leb
    exact iff_of_true (leb (.inl rfl)) rfl
  | sleb =>
    rw [kind] at leb
    exact iff_of_true (leb (.inr rfl)) rfl

theorem fieldsConsistent_iff {layout : Layout}
    (laidOut : assembler.layoutSection options sectionIndex = some layout)
    (seen : Seen assembler final sectionIndex layout.fields)
    (formed : ∀ field ∈ (assembler.sections.getD sectionIndex default).deferred,
      field.kind = .branch →
        0 < field.branch.relOffset ∧ field.branch.relOffset + 4 = field.branch.nearBytes.length) :
    FieldsConsistent final sectionIndex (assembler.sections.getD sectionIndex default).deferred
        layout ↔ sectionReaches options assembler sectionIndex = true := by
  rw [layoutSection_eq, bind_eq_some_iff] at laidOut
  obtain ⟨fields, isSettled, laidOut⟩ := laidOut
  obtain ⟨expansions, expanded, rfl⟩ := map_eq_some_iff.mp laidOut
  obtain ⟨same, sized, stable⟩ := settledFields_settled isSettled
  obtain ⟨count, entries⟩ := getElem?_of_mapM_range expanded
  have each : ∀ index field expansion, fields[index]? = some field →
      expansions[index]? = some expansion →
      (FieldConsistent final sectionIndex (placeOf fields index field) field expansion ↔
        (field.kind != .branch ||
          branchReaches options assembler sectionIndex fields index field) = true) := by
    intro index field expansion isField isExpansion
    obtain ⟨original, member, isOriginal⟩ := settled_field same isField
    have isRecorded : recorded field = recorded original := by
      rw [isOriginal]
      exact recorded_startField
    obtain ⟨kind, offset, near⟩ := recorded_eq isRecorded
    apply fieldConsistent_iff seen
    · rw [kind, offset, near]
      exact formed original member
    · exact sized field (mem_of_getElem? isField)
    · intro isBranch
      rw [isOriginal]
      exact startField_targetsOwn (kind.symm.trans isBranch)
    · exact stable index field isField
    · have small : index < fields.length := (List.getElem?_eq_some_iff.mp isField).1
      rw [entries index small, isField] at isExpansion
      exact isExpansion
  rw [sectionReaches, isSettled]
  simp only [List.all_eq_true, mem_range]
  constructor
  · intro consistent index small
    have isField := List.getElem?_eq_getElem small
    have isExpansion := List.getElem?_eq_getElem (show index < expansions.length by omega)
    rw [isField]
    exact (each index _ _ isField isExpansion).mp (consistent.each index _ _ isField isExpansion)
  · intro reaches
    constructor
    · have stripped := congrArg (List.map recorded) same
      rw [List.map_map, List.map_map] at stripped
      refine Eq.trans stripped (ext_getElem? fun index => ?_)
      rw [startedFields, getElem?_map, getElem?_mapIdx, getElem?_map, Option.map_map]
      apply congrFun (congrArg Option.map _)
      funext field
      exact recorded_startField
    · intro index field expansion isField isExpansion
      apply (each index field expansion isField isExpansion).mpr
      have reached := reaches index (List.getElem?_eq_some_iff.mp isField).1
      rw [isField] at reached
      exact reached

end Fields

theorem moveSymbol_rest (sectionIndex : ℕ) (layout : Layout) (symbol : AsmSymbol) :
    (moveSymbol sectionIndex layout symbol).state = symbol.state ∧
      (moveSymbol sectionIndex layout symbol).value = symbol.value := by
  rw [moveSymbol]
  split
  · exact ⟨rfl, rfl⟩
  · exact ⟨rfl, rfl⟩

theorem Assembler.Expanded.seen {before final : Assembler} {layoutOf : ℕ → Layout}
    {indices : List ℕ} (expanded : Expanded before final layoutOf indices) {sectionIndex : ℕ}
    (member : sectionIndex ∈ indices) :
    Seen before final sectionIndex (layoutOf sectionIndex).fields := by
  have cases : ∀ id, final.sym id = before.sym id ∨
      final.sym id = moveSymbol (before.sym id).sectionIndex
        (layoutOf (before.sym id).sectionIndex) (before.sym id) := by
    intro id
    by_cases moves : (before.sym id).sectionIndex ∈ indices
    · exact .inr (expanded.moves id moves)
    · exact .inl (expanded.stays id moves)
  refine ⟨?_, ?_, ?_, ?_, ?_⟩
  · intro id
    rcases cases id with same | isMoved
    · rw [same]
    · rw [isMoved, (moveSymbol_rest _ _ _).1]
  · intro id
    rcases cases id with same | isMoved
    · rw [same]
    · rw [isMoved, moveSymbol_section]
  · intro id
    rcases cases id with same | isMoved
    · rw [same]
    · rw [isMoved, (moveSymbol_rest _ _ _).2]
  · rintro id isLabel rfl
    rw [expanded.moves id member, moveSymbol, if_pos ⟨isLabel, rfl⟩]
  · intro id _ noFields
    by_cases moves : (before.sym id).sectionIndex ∈ indices
    · have fits := expanded.fits _ moves
      rw [List.isEmpty_iff] at noFields
      have none : (layoutOf (before.sym id).sectionIndex).fields = [] := by
        have offsets := fits.offsets
        rw [noFields, map_nil] at offsets
        exact map_eq_nil_iff.mp offsets
      rw [expanded.moves id moves, moveSymbol]
      split
      · rw [none]
        exact moved_none _ _
      · rfl
    · rw [expanded.stays id moves]

theorem getD_applyLayout {assembler : Assembler} {layout : Layout} {sectionIndex other : ℕ}
    (differs : other ≠ sectionIndex) :
    (assembler.applyLayout sectionIndex layout).sections.getD other default =
      assembler.sections.getD other default := by
  rw [applyLayout, getD_eq_getElem?_getD, getD_eq_getElem?_getD, getElem?_modify]
  simp [Ne.symm differs]

/-- The fields of all sections are consistent exactly when all branches reach. -/
theorem allConsistent_iff {options : AsmOptions} {indices : List ℕ}
    {deferredOf : ℕ → List DeferredField} {before final : Assembler} {layouts : List Layout}
    (distinct : indices.Nodup)
    (isDeferred : ∀ index ∈ indices,
      (before.sections.getD index default).deferred = deferredOf index)
    (formed : ∀ index ∈ indices, ∀ field ∈ deferredOf index, field.kind = .branch →
      0 < field.branch.relOffset ∧ field.branch.relOffset + 4 = field.branch.nearBytes.length)
    (expanded : expandSections options indices before = some (final, layouts)) :
    List.Forall₂ (fun index layout => FieldsConsistent final index (deferredOf index) layout)
      indices layouts ↔ reachesAll options indices before = true := by
  induction indices generalizing before layouts with
  | nil =>
    cases expanded
    exact iff_of_true .nil rfl
  | cons index rest induction =>
    obtain ⟨layoutOf, isMap, onAll⟩ := expandSections_expanded distinct expanded
    obtain ⟨layout, more, rfl, laidOut, expanded⟩ := expandSections_cons expanded
    obtain ⟨first, distinctRest⟩ := nodup_cons.mp distinct
    rw [map_cons, List.cons.injEq] at isMap
    have seen := onAll.seen mem_cons_self
    rw [← isMap.1] at seen
    have head := fieldsConsistent_iff laidOut seen (by
      rw [isDeferred index mem_cons_self]
      exact formed index mem_cons_self)
    rw [isDeferred index mem_cons_self] at head
    have tail := induction distinctRest
      (fun other member => by
        have differs : other ≠ index := fun same => first (same ▸ member)
        rw [getD_applyLayout differs]
        exact isDeferred other (mem_cons_of_mem _ member))
      (fun other member => formed other (mem_cons_of_mem _ member)) expanded
    rw [List.forall₂_cons, head, tail, reachesAll, laidOut, Bool.and_eq_true]

theorem Assembler.Expanded.positionsAgree {before final : Assembler} {layoutOf : ℕ → Layout}
    {indices : List ℕ} (expanded : Expanded before final layoutOf indices) {sectionIndex : ℕ}
    (member : sectionIndex ∈ indices) {part : AsmSection}
    (isPart : before.sections[sectionIndex]? = some part)
    (ordered : Between 0 part.bytes.length (offsetsOf part.deferred)) :
    PositionsAgree before final sectionIndex (layoutOf sectionIndex) := by
  have fits := expanded.fits sectionIndex member
  have isFinal := expanded.inside sectionIndex member
  have before_getD : before.sections.getD sectionIndex default = part := by
    rw [getD_eq_getElem?_getD, isPart, getD_some]
  have final_getD : final.sections.getD sectionIndex default =
      expandPart (layoutOf sectionIndex) part := by
    rw [getD_eq_getElem?_getD, isFinal, isPart, map_some, getD_some]
  rw [before_getD] at fits
  constructor
  · rw [before_getD, final_getD]
    apply interleave_agrees
    · rw [offsetsOf, fits.offsets]
      exact ordered
    · exact fits.sizes
  · rintro id isLabel rfl
    rw [expanded.moves id member, moveSymbol, if_pos ⟨isLabel, rfl⟩]
  · rw [before_getD, final_getD]
    rfl
  · rw [before_getD, final_getD]
    exact ⟨rfl, rfl⟩

/-- An expansion without an error is consistent exactly when the number in every
near branch fits its field and counts from the section of its target. -/
theorem expansion_consistent_iff {options : AsmOptions} {before final : Assembler}
    {layouts : List Layout} (formed : Formed before)
    (expanded : expandSections options (List.range before.sections.length) before =
      some (final, layouts)) :
    Consistent before final layouts ↔
      reachesAll options (List.range before.sections.length) before = true := by
  obtain ⟨layoutOf, isMap, onAll⟩ := expandSections_expanded nodup_range expanded
  have inSections : ∀ index < before.sections.length,
      before.sections.getD index default ∈ before.sections := by
    intro index small
    rw [getD_eq_getElem?_getD, List.getElem?_eq_getElem small, getD_some]
    exact getElem_mem small
  subst isMap
  have isLayout : ∀ index < before.sections.length,
      ((List.range before.sections.length).map layoutOf).getD index {} = layoutOf index := by
    intro index small
    rw [getD_eq_getElem?_getD, getElem?_map, getElem?_range small]
    rfl
  have fields := @allConsistent_iff options (List.range before.sections.length)
    (fun index => (before.sections.getD index default).deferred) before final _
    nodup_range (fun _ _ => rfl)
    (fun index member => (formed _ (inSections index (mem_range.mp member))).2) expanded
  rw [← fields, List.forall₂_map_right_iff, List.forall₂_same]
  constructor
  · intro consistent index member
    have both := consistent index (mem_range.mp member)
    rw [isLayout index (mem_range.mp member)] at both
    exact both.2
  · intro consistent index small
    have isPart : before.sections[index]? = some (before.sections.getD index default) := by
      rw [getD_eq_getElem?_getD, List.getElem?_eq_getElem small, getD_some]
    rw [isLayout index small]
    exact ⟨onAll.positionsAgree (mem_range.mpr small) isPart (formed _ (inSections index small)).1,
      consistent index (mem_range.mpr small)⟩

def jump (rawOffset : ℕ) (target : SymId) : DeferredField :=
  { kind := .branch
    rawOffset
    posSym := some target
    branch := { shortOpcode := 0xEB, nearBytes := [0xE9, 0, 0, 0, 0], relOffset := 1 }
    size := 5 }

/-- Two branches, padding and a distance between labels. -/
def relaxedUnit : Assembler :=
  { sections :=
      [{ segname := "__TEXT"
         sectname := "__text"
         bytes := [0x90, 0x90, 0x90, 0x90, 0x90]
         deferred :=
          [jump 1 0, jump 1 1, { kind := .align, rawOffset := 3, alignLog2 := 4 },
            { kind := .uleb, rawOffset := 4, posSym := some 2, negSym := some 0 }] }]
    symbols :=
      [{ name := "_a", state := .label }, { name := "_b" },
        { name := "Lend", state := .label, offset := 5, deferredSeq := 4 }] }

theorem relaxedUnit_consistent :
    ∃ final layouts, expandSections {} (List.range relaxedUnit.sections.length) relaxedUnit =
      some (final, layouts) ∧ Consistent relaxedUnit final layouts := by
  have formed : Formed relaxedUnit := by
    intro part member
    rw [relaxedUnit, mem_singleton] at member
    subst member
    refine ⟨by simp [Between, offsetsOf, jump], ?_⟩
    simp [jump]
  have accepted : (expandSections {} (List.range relaxedUnit.sections.length)
      relaxedUnit).isSome = true := by decide +kernel
  obtain ⟨⟨final, layouts⟩, expanded⟩ := isSome_iff_exists.mp accepted
  exact ⟨final, layouts, expanded,
    (expansion_consistent_iff formed expanded).mpr (by decide +kernel)⟩

/-- A branch to a local label of a section behind its own. -/
def crossingUnit : Assembler :=
  { sections :=
      [{ segname := "__TEXT", sectname := "__text", deferred := [jump 0 1] },
        { segname := "__TEXT", sectname := "__cold", bytes := [0x90, 0xC3] }]
    symbols :=
      [{ name := "_main", state := .label },
        { name := "Lcold", state := .label, sectionIndex := 1, offset := 1 }] }

/-- The branch counts from the atom of its own section. -/
def crossingLayout : Layout :=
  { fields := [jump 0 1]
    expansions :=
      [{ bytes := [0xE9, 1, 0, 0, 0]
         relocs := [{ offset := 1, kind := .branch32, symbol := 0 }] }] }

def crossingFinal : Assembler := crossingUnit.applyLayout 0 crossingLayout

deriving instance DecidableEq for Expansion, Layout

theorem crossingUnit_expanded :
    expandSections {} (List.range crossingUnit.sections.length) crossingUnit =
      some (crossingFinal, [crossingLayout, {}]) := by
  decide +kernel

theorem crossingUnit_inconsistent :
    ¬ ∀ options before final layouts, Formed before →
      expandSections options (List.range before.sections.length) before = some (final, layouts) →
      Consistent before final layouts := by
  intro all
  have formed : Formed crossingUnit := by
    intro part member
    rw [crossingUnit, mem_cons, mem_singleton] at member
    rcases member with rfl | rfl
    · refine ⟨by simp [Between, offsetsOf, jump], ?_⟩
      simp [jump]
    · simp [Between]
  have both := all {} crossingUnit _ _ formed crossingUnit_expanded 0 (by decide)
  have consistent := both.2.each 0 _ _ rfl rfl
  have lands := consistent.lands ⟨fun index => if index = 0 then 0 else 0x1000, fun _ => 0⟩
  revert lands
  decide

end Aburi.Asm
