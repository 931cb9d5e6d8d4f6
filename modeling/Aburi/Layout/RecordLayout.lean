import Aburi.Layout.Types
import Aburi.Lib.FirstFit
import Mathlib.Algebra.Ring.Nat

/-!
# Record layout

`Session::compute_record_layout`.  Every sum, product and rounding of a `size_t`
wraps at `2 ^ 64`, and the casts of the bit-field code at `2 ^ 32`.  The search for
the place of a field is a loop without a bound in the source: it takes one of
`2 ^ 64` positions after the other, so that a search which has seen that many
occupied ones never ends, and the layout has no result.

Whether a type depends on a template parameter is asked of the session and is a
parameter of the layout.
-/

namespace Aburi.Layout

open Aburi.Cir (TypeId ArraySizeKind)
open Aburi.Lib (alignTo firstFit)

inductive CxxAbiKind where
  | itanium | microsoft
  deriving DecidableEq

inductive BitfieldABI where
  | itanium | msvc
  deriving DecidableEq

inductive EndiannessKind where
  | little | big
  deriving DecidableEq

structure AbiPolicy where
  cxxAbi : CxxAbiKind := .itanium
  bitfieldAbi : BitfieldABI := .itanium
  endianness : EndiannessKind := .little

/-- What a layout reads besides the fields of the record. -/
structure LayoutContext where
  target : TargetInfo
  policy : AbiPolicy := {}
  isCxxMode : Bool
  isDependentType : LayoutType → Bool := fun _ => false
  isPacked : Bool := false
  requestedAlignment : ℕ := 0
  packAlignment : ℕ := 0

structure RecordLayoutInfo where
  fields : List RecordFieldFact
  sizeBits : ℕ
  alignment : ℕ
  hasError : Bool := false
  hasFlexibleArrayMember : Bool := false

abbrev FootprintEntry := TypeId × ℕ

def uint32 (value : ℕ) : ℕ := value % 2 ^ 32

/-- `align_to` -/
def alignToSize (value alignment : ℕ) : ℕ := sizeT (alignTo value alignment)

def bitfieldAllocationStorageBits (typeBits declaredWidth : ℕ) : ℕ :=
  if declaredWidth ≤ typeBits then typeBits
  else
    let storage :=
      doubleWhile (fun storage => storage < declaredWidth ∧ storage ≤ 2 ^ 31) 32 8
    if storage < 2 ^ 32 then storage else declaredWidth

namespace LayoutContext

variable (context : LayoutContext)

def useMsvcBitfields : Bool := context.policy.bitfieldAbi = .msvc

def tightPackedBitfields : Bool :=
  !context.useMsvcBitfields && (context.isPacked || context.packAlignment = 1)

def msbFirstBitfields : Bool :=
  !context.useMsvcBitfields && context.policy.endianness = .big

/-- The size and the alignment of a field's type, with what the session answers
for a type that depends on a template parameter. -/
def sizeAlignOfType (type : LayoutType) : Option TypeSizeAlign :=
  match Aburi.Layout.sizeAlignOfType context.target type with
  | some sizeAlign => some sizeAlign
  | none => if context.isDependentType type then some ⟨8, 8⟩ else none

def toTargetBitOffset (field : RecordFieldFact) : RecordFieldFact :=
  if field.bitWidthIsDependent then field
  else if context.msbFirstBitfields ∧
      field.storageSize ≥ uint32 (field.bitOffset + field.bitWidth) then
    { field with
      bitOffset := uint32 (field.storageSize + 2 ^ 33 - field.bitOffset - field.bitWidth) }
  else field

/-- The alignment of a field whose type has the given alignment. -/
def fieldAlign (field : RecordFieldFact) (typeAlign : ℕ) : ℕ :=
  let chosen :=
    if field.storageAlignmentOverride > 0 then field.storageAlignmentOverride
    else if field.forcedAlignment > 0 then field.forcedAlignment
    else typeAlign
  let atLeastOne := max 1 chosen
  let natural := field.storageAlignmentOverride = 0 ∧ field.forcedAlignment = 0
  let capped :=
    if natural ∧ ¬context.isPacked ∧ context.packAlignment > 0 ∧
        atLeastOne > context.packAlignment then
      context.packAlignment
    else atLeastOne
  if context.isPacked ∧ natural then 1 else capped

/-- Size and alignment of a field, and whether its type has an error. -/
def fieldSizeAlign (field : RecordFieldFact) : ℕ × ℕ × Bool :=
  match field.type with
  | .array element .incomplete _ =>
    match context.sizeAlignOfType element with
    | none => (0, 1, true)
    | some inner => (0, context.fieldAlign field inner.alignmentBytes, false)
  | type =>
    match context.sizeAlignOfType type with
    | none => (1, 1, true)
    | some sizeAlign =>
      let size :=
        if field.storageSizeOverride > 0 then field.storageSizeOverride
        else sizeAlign.sizeBytes
      let zeroSizedMember :=
        sizeAlign.sizeBytes = 0 ∧ field.storageSizeOverride = 0
      (if zeroSizedMember then size else max 1 size,
        context.fieldAlign field sizeAlign.alignmentBytes, false)

def classifySubobjectSize (field : RecordFieldFact) : RecordFieldFact :=
  let overlapping := field.isBaseSubobject || field.isNoUniqueAddress
  let kind : SubobjectSizeKind :=
    if context.policy.cxxAbi ≠ .itanium ∨ ¬overlapping ∨ field.isBitfield then
      .nonZero
    else if context.isDependentType field.type then .dependent
    else
      match field.type with
      | .record _ none => .dependent
      | .record _ (some facts) =>
        match facts.isEmpty with
        | .unavailable | .dependent => .dependent
        | .true => .zero
        | .false => .nonZero
      | _ => .nonZero
  { field with isPotentiallyOverlapping := overlapping, subobjectSize := kind }

end LayoutContext

mutual

/-- The class subobjects of an object of the given type and their addresses. -/
def appendRecordFootprint (target : TargetInfo) :
    LayoutType → ℕ → Bool → List FootprintEntry
  | .array element _ (some count), baseOffset, includeVirtualStorage =>
    match sizeAlignOfType target element with
    | none => []
    | some inner =>
      (List.range count).flatMap fun index =>
        appendRecordFootprint target element
          (sizeT (baseOffset + index * inner.sizeBytes)) includeVirtualStorage
  | .record id none, baseOffset, _ => [(id, baseOffset)]
  | .record id (some { isIncomplete, fields, .. }), baseOffset, includeVirtualStorage =>
    (id, baseOffset) ::
      if isIncomplete then []
      else appendFieldFootprints target fields baseOffset includeVirtualStorage
  | _, _, _ => []

def appendFieldFootprints (target : TargetInfo) :
    List RecordFieldFact → ℕ → Bool → List FootprintEntry
  | [], _, _ => []
  | { type, offset, isBitfield, isFlexibleArrayMember, isVirtualBaseStorage,
      isBaseSubobject, .. } :: rest, baseOffset, includeVirtualStorage =>
      (if isBitfield || isFlexibleArrayMember ||
          (isVirtualBaseStorage && !includeVirtualStorage) then []
        else appendRecordFootprint target type (sizeT (baseOffset + offset))
          (!isBaseSubobject)) ++
        appendFieldFootprints target rest baseOffset includeVirtualStorage

end

def footprintConflicts (candidate occupied : List FootprintEntry) : Bool :=
  candidate.any fun entry => occupied.any fun taken => entry = taken

/-- The loop that moves a candidate until its footprint fits.  `resume` is where
an empty virtual base goes on after it has been tried at the origin. -/
def searchCandidate (conflicts : ℕ → Bool) (fieldAlign : ℕ) :
    Option ℕ → ℕ → ℕ → Option ℕ
  | _, 0, _ => none
  | resume, fuel + 1, candidate =>
    if conflicts candidate then
      match resume with
      | some cursor => searchCandidate conflicts fieldAlign none fuel cursor
      | none =>
        searchCandidate conflicts fieldAlign none fuel (sizeT (candidate + fieldAlign))
    else some candidate

/-- The origin and every other position once. -/
def searchFuel : ℕ := 2 ^ 64 + 1

structure LayoutState where
  currentBit : ℕ := 0
  currentByte : ℕ := 0
  objectExtent : ℕ := 0
  maxAlign : ℕ := 1
  currentMsvcStorageBits : ℕ := 0
  currentMsvcBitOffset : ℕ := 0
  currentMsvcStorageByte : ℕ := 0
  occupied : List FootprintEntry := []
  hasError : Bool := false
  hasFlexibleArrayMember : Bool := false

def LayoutState.bytesUsed (state : LayoutState) : ℕ :=
  max state.currentByte (sizeT (state.currentBit + 7) / 8)

namespace LayoutContext

variable (context : LayoutContext)

def placeZeroWidth (state : LayoutState) (field : RecordFieldFact)
    (storageBits unitAlign : ℕ) : LayoutState × RecordFieldFact :=
  let state :=
    if context.useMsvcBitfields ∧ state.currentMsvcStorageBits > 0 then
      { state with
        currentByte := sizeT (state.currentMsvcStorageByte + state.currentMsvcStorageBits / 8)
        currentMsvcStorageBits := 0
        currentMsvcBitOffset := 0 }
    else state
  let byte := alignToSize state.bytesUsed unitAlign
  let bit := sizeT (byte * 8)
  let aligned := alignToSize bit (sizeT (unitAlign * 8))
  ({ state with currentBit := aligned, currentByte := aligned / 8 },
    { field with offset := bit / 8, bitOffset := 0, storageSize := storageBits })

def placeMsvcBitfield (state : LayoutState) (field : RecordFieldFact)
    (width storageBits unitAlign : ℕ) : LayoutState × RecordFieldFact :=
  let fits := state.currentMsvcStorageBits = storageBits ∧
    uint32 (state.currentMsvcBitOffset + width) ≤ storageBits
  let state :=
    if fits then state
    else
      let byte :=
        if state.currentMsvcStorageBits > 0 then
          sizeT (state.currentMsvcStorageByte + state.currentMsvcStorageBits / 8)
        else state.bytesUsed
      let byte := alignToSize byte unitAlign
      { state with
        currentByte := byte
        currentMsvcStorageByte := byte
        currentMsvcStorageBits := storageBits
        currentMsvcBitOffset := 0 }
  let bitOffset := uint32 (state.currentMsvcBitOffset + width)
  ({ state with
      currentMsvcBitOffset := bitOffset
      currentBit := sizeT (state.currentMsvcStorageByte * 8 + bitOffset) },
    { field with
      offset := state.currentMsvcStorageByte
      bitOffset := state.currentMsvcBitOffset
      storageSize := storageBits })

def placeTightBitfield (state : LayoutState) (field : RecordFieldFact)
    (width : ℕ) : LayoutState × RecordFieldFact :=
  let bitOffset := state.currentBit % 8
  let bit := sizeT (state.currentBit + width)
  ({ state with
      currentBit := bit, currentByte := max state.currentByte (sizeT (bit + 7) / 8) },
    context.toTargetBitOffset { field with
      offset := state.currentBit / 8
      bitOffset := bitOffset
      storageSize := uint32 (uint32 (bitOffset + width + 7) / 8 * 8) })

def placeWideBitfield (state : LayoutState) (field : RecordFieldFact)
    (width storageBits unitAlign : ℕ) : LayoutState × RecordFieldFact :=
  let start := alignToSize state.currentBit (sizeT (unitAlign * 8))
  let offset := start / 8
  ({ state with
      currentBit := sizeT (start + width)
      currentByte := max state.currentByte (sizeT (offset + storageBits / 8)) },
    context.toTargetBitOffset { field with
      offset := offset, bitOffset := 0, storageSize := storageBits })

def placeUnitBitfield (state : LayoutState) (field : RecordFieldFact)
    (width storageBits unitAlign : ℕ) : LayoutState × RecordFieldFact :=
  let unitAlignBits := max 8 (sizeT (unitAlign * 8))
  let unitStart := state.currentBit / unitAlignBits * unitAlignBits
  let unitEnd := sizeT (unitStart + storageBits)
  let start :=
    if sizeT (state.currentBit + width) > unitEnd then alignToSize unitEnd unitAlignBits
    else state.currentBit
  let bit := sizeT (start + width)
  ({ state with
      currentBit := bit, currentByte := max state.currentByte (sizeT (bit + 7) / 8) },
    context.toTargetBitOffset { field with
      offset := start / storageBits * (storageBits / 8)
      bitOffset := uint32 (start % storageBits)
      storageSize := storageBits })

def layoutBitWidth (field : RecordFieldFact) (typeStorageBits : ℕ) : ℕ :=
  if field.bitWidthIsDependent then max 1 typeStorageBits else field.bitWidth

def placeBitfield (state : LayoutState) (field : RecordFieldFact)
    (fieldSize fieldAlign : ℕ) : LayoutState × RecordFieldFact :=
  let typeStorageBits := uint32 (fieldSize * 8)
  let width := layoutBitWidth field typeStorageBits
  let storageBits := bitfieldAllocationStorageBits typeStorageBits width
  let unitAlign := max 1 fieldAlign
  if width = 0 then context.placeZeroWidth state field storageBits unitAlign
  else if context.useMsvcBitfields then
    placeMsvcBitfield state field width storageBits unitAlign
  else if context.tightPackedBitfields then
    context.placeTightBitfield state field width
  else if width > typeStorageBits then
    context.placeWideBitfield state field width storageBits unitAlign
  else context.placeUnitBitfield state field width storageBits unitAlign

/-- A field that is no bit-field ends the storage unit of the bit-fields before
it. -/
def leaveMsvcUnit (state : LayoutState) : LayoutState :=
  if context.useMsvcBitfields ∧ state.currentMsvcStorageBits > 0 then
    { state with
      currentByte := sizeT (state.currentMsvcStorageByte + state.currentMsvcStorageBits / 8)
      currentMsvcStorageBits := 0
      currentMsvcBitOffset := 0 }
  else state

/-- The footprint of a field at a candidate offset. -/
def fieldFootprint (field : RecordFieldFact) (candidate : ℕ) : List FootprintEntry :=
  appendRecordFootprint context.target field.type candidate (!field.isBaseSubobject)

def fieldConflicts (occupied : List FootprintEntry) (field : RecordFieldFact)
    (candidate : ℕ) : Bool :=
  footprintConflicts (context.fieldFootprint field candidate) occupied

/-- The offset the search ends on for a field that is no bit-field. -/
def fieldCandidate (occupied : List FootprintEntry) (cursor : ℕ)
    (field : RecordFieldFact) (fieldAlign : ℕ) : Option ℕ :=
  let aligned := alignToSize cursor fieldAlign
  let isZero := field.subobjectSize = .zero
  searchCandidate (context.fieldConflicts occupied field) fieldAlign
    (if isZero ∧ field.isVirtualBaseStorage then some aligned else none)
    searchFuel (if isZero then 0 else aligned)

/-- The field at the candidate the search has ended on. -/
def settleField (state : LayoutState) (field : RecordFieldFact) (fieldSize candidate : ℕ) :
    LayoutState × RecordFieldFact :=
  let placed :=
    { field with offset := candidate, bitOffset := 0, bitWidth := 0, storageSize := 0 }
  let state :=
    { state with occupied := state.occupied ++ context.fieldFootprint field candidate }
  if field.subobjectSize = .zero then
    ({ state with objectExtent := max state.objectExtent (sizeT (candidate + 1)) }, placed)
  else
    let byte := sizeT (candidate + fieldSize)
    ({ state with
        currentByte := byte
        currentBit := sizeT (byte * 8)
        objectExtent := max state.objectExtent byte }, placed)

def placeField (state : LayoutState) (field : RecordFieldFact)
    (fieldSize fieldAlign : ℕ) : Option (LayoutState × RecordFieldFact) :=
  let state := context.leaveMsvcUnit state
  (context.fieldCandidate state.occupied state.bytesUsed field fieldAlign).map
    (context.settleField state field fieldSize)

/-- The state in which a field is placed.  Only the last field can be a flexible
array tail. -/
def noteField (isLast : Bool) (state : LayoutState) (field : RecordFieldFact) : LayoutState :=
  { state with
    hasError := state.hasError || (context.fieldSizeAlign field).2.2
    hasFlexibleArrayMember :=
      state.hasFlexibleArrayMember || (isLast && field.isFlexibleArrayMember)
    maxAlign := max state.maxAlign (context.fieldSizeAlign field).2.1 }

/-- One turn of the loop over the fields. -/
def layoutField (isLast : Bool) (state : LayoutState) (field : RecordFieldFact) :
    Option (LayoutState × RecordFieldFact) :=
  let (size, align, _) := context.fieldSizeAlign field
  let size := if isLast && field.isFlexibleArrayMember then 0 else size
  let state := context.noteField isLast state field
  if field.isBitfield then some (context.placeBitfield state field size align)
  else context.placeField state field size align

def layoutFields (state : LayoutState) :
    List RecordFieldFact → Option (LayoutState × List RecordFieldFact)
  | [] => some (state, [])
  | field :: rest =>
    match context.layoutField rest.isEmpty state field with
    | none => none
    | some (next, placed) =>
      (layoutFields next rest).map fun (final, others) => (final, placed :: others)

/-- The alignment of the record, from the largest alignment of its fields. -/
def finalAlign (maxAlign : ℕ) : ℕ :=
  let base := if context.isPacked then 1 else maxAlign
  if context.requestedAlignment > base then context.requestedAlignment else base

structure UnionState where
  maxSize : ℕ := 0
  maxAlign : ℕ := 1
  hasError : Bool := false
  hasFlexibleArrayMember : Bool := false

def layoutUnionField (isLast : Bool) (state : UnionState) (field : RecordFieldFact) :
    UnionState × RecordFieldFact :=
  let (size, align, isError) := context.fieldSizeAlign field
  let typeStorageBits := uint32 (size * 8)
  let width := layoutBitWidth field typeStorageBits
  let placed :=
    if field.isBitfield then
      { field with
        offset := 0
        bitOffset := 0
        storageSize := bitfieldAllocationStorageBits typeStorageBits width }
    else { field with offset := 0, bitOffset := 0, bitWidth := 0, storageSize := 0 }
  let size :=
    if field.isBitfield ∧ ¬context.useMsvcBitfields then
      max 1 (uint32 (width + 7) / 8)
    else size
  let isTail := isLast && field.isFlexibleArrayMember
  ({ state with
      maxSize :=
        if field.subobjectSize ≠ .zero then max state.maxSize size else state.maxSize
      maxAlign := max state.maxAlign align
      hasError := state.hasError || isError
      hasFlexibleArrayMember := state.hasFlexibleArrayMember || isTail }, placed)

def layoutUnionFields (state : UnionState) :
    List RecordFieldFact → UnionState × List RecordFieldFact
  | [] => (state, [])
  | field :: rest =>
    let (next, placed) := context.layoutUnionField rest.isEmpty state field
    let (final, others) := layoutUnionFields next rest
    (final, placed :: others)

def layoutUnion (fields : List RecordFieldFact) : RecordLayoutInfo :=
  let (state, placed) := context.layoutUnionFields {} fields
  let align := context.finalAlign state.maxAlign
  { fields := placed
    sizeBits := sizeT (alignToSize (max 1 state.maxSize) align * 8)
    alignment := max 1 align
    hasError := state.hasError
    hasFlexibleArrayMember := state.hasFlexibleArrayMember }

/-- The bytes of the record before they are rounded up to its alignment. -/
def finalBytes (state : LayoutState) : ℕ :=
  let byte :=
    if context.useMsvcBitfields ∧ state.currentMsvcStorageBits > 0 then
      sizeT (state.currentMsvcStorageByte + state.currentMsvcStorageBits / 8)
    else state.bytesUsed
  max byte state.objectExtent

/-- The size in bits of a record that takes the given number of bytes. -/
def finalSizeBits (byte align : ℕ) : ℕ :=
  if ¬context.isCxxMode ∧ byte = 0 then 0
  else max 8 (sizeT (alignToSize (max 1 byte) align * 8))

def layoutSequence (fields : List RecordFieldFact) : Option RecordLayoutInfo :=
  (context.layoutFields {} fields).map fun (state, placed) =>
    let align := context.finalAlign state.maxAlign
    { fields := placed
      sizeBits := context.finalSizeBits (context.finalBytes state) align
      alignment := max 1 align
      hasError := state.hasError
      hasFlexibleArrayMember := state.hasFlexibleArrayMember }

/-- `compute_record_layout` -/
def computeRecordLayout (kind : RecordKind) (inputFields : List RecordFieldFact) :
    Option RecordLayoutInfo :=
  if inputFields.isEmpty then
    let alignment := max 1 context.requestedAlignment
    some {
      fields := []
      sizeBits := if context.isCxxMode then sizeT (alignment * 8) else 0
      alignment := alignment }
  else
    let fields := inputFields.map context.classifySubobjectSize
    if kind = .union then some (context.layoutUnion fields)
    else context.layoutSequence fields

end LayoutContext

end Aburi.Layout
