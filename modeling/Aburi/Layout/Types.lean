import Aburi.Cir.Types

/-!
# Types as the record layout reads them

The types of a file unfolded into trees: each type is the one `resolved_type`
returns, so that no typedef is left, and a record carries its facts.  References and block
pointers are `reference`; the kinds without a size are `other`.
-/

namespace Aburi.Layout

open Aburi.Cir (TypeId BuiltinTypeKind ArraySizeKind)

inductive RecordKind where
  | struct | classType | union
  deriving DecidableEq

inductive ClassPropertyState where
  | false | true | dependent | unavailable
  deriving DecidableEq

inductive SubobjectSizeKind where
  | nonZero | zero | dependent
  deriving DecidableEq

inductive LongDoubleFormat where
  | ieeeDouble | x87Extended | ieeeQuad
  deriving DecidableEq

mutual

inductive LayoutType where
  | builtin (kind : BuiltinTypeKind)
  | pointer
  | reference
  | memberPointer (pointsToFunction : Bool)
  | function
  | array (element : LayoutType) (sizeKind : ArraySizeKind) (size : Option ℕ)
  | record (id : TypeId) (facts : Option RecordFacts)
  | enum (underlying : Option LayoutType)
  | vector (element : Option LayoutType) (elementCount sizeBytes : ℕ)
  | complex (element : Option LayoutType)
  | bitInt (bits : ℕ)
  | other

structure RecordFacts where
  kind : RecordKind
  isIncomplete : Bool
  isEmpty : ClassPropertyState
  fields : List RecordFieldFact
  sizeBits : ℕ
  alignment : ℕ

structure RecordFieldFact where
  type : LayoutType
  offset : ℕ := 0
  forcedAlignment : ℕ := 0
  storageSizeOverride : ℕ := 0
  storageAlignmentOverride : ℕ := 0
  isBitfield : Bool := false
  isFlexibleArrayMember : Bool := false
  bitOffset : ℕ := 0
  bitWidth : ℕ := 0
  bitWidthIsDependent : Bool := false
  storageSize : ℕ := 0
  isBaseSubobject : Bool := false
  isVirtualBaseStorage : Bool := false
  isNoUniqueAddress : Bool := false
  isPotentiallyOverlapping : Bool := false
  subobjectSize : SubobjectSizeKind := .nonZero

end

structure TargetInfo where
  pointerWidth : ℤ
  longWidth : ℤ
  wcharWidth : ℤ := 32
  longDoubleFormat : LongDoubleFormat
  longDoubleStorageBytes : ℤ := 0
  longDoubleAlignBytes : ℤ := 0
  maxAlignmentBytes : ℕ := 16

structure TypeSizeAlign where
  sizeBytes : ℕ
  alignmentBytes : ℕ
  deriving DecidableEq

/-- The arithmetic of `size_t`. -/
def sizeT (value : ℕ) : ℕ := value % 2 ^ 64

theorem sizeT_lt (value : ℕ) : sizeT value < 2 ^ 64 := Nat.mod_lt _ (Nat.two_pow_pos 64)

theorem sizeT_of_lt {value : ℕ} (fits : value < 2 ^ 64) : sizeT value = value :=
  Nat.mod_eq_of_lt fits

@[simp] theorem sizeT_add_left (value other : ℕ) :
    sizeT (sizeT value + other) = sizeT (value + other) :=
  Nat.mod_add_mod _ _ _

def bytesForBits (bits : ℤ) : ℕ :=
  (max 1 ((bits + 7).tdiv 8)).toNat

/-- Doubles `value` as long as the condition holds. -/
def doubleWhile (condition : ℕ → Bool) : ℕ → ℕ → ℕ
  | 0, value => value
  | fuel + 1, value =>
    if condition value then doubleWhile condition fuel (value * 2) else value

/-- Asked for the sizes of vectors, whose elements are numbers and no more than
`2 ^ 32`: no doubling leaves `size_t`. -/
def nextPowerOfTwo (value : ℕ) : ℕ :=
  if value ≤ 1 then 1 else doubleWhile (· < value) value 1

def builtinSizeAlign (kind : BuiltinTypeKind) (target : TargetInfo) :
    Option TypeSizeAlign :=
  let pointerBytes := bytesForBits target.pointerWidth
  let longBytes := bytesForBits target.longWidth
  let wcharBytes := bytesForBits target.wcharWidth
  match kind with
  | .void => some ⟨1, 1⟩
  | .nullPtr | .usize | .metaInfo => some ⟨pointerBytes, pointerBytes⟩
  | .bool | .char | .schar | .uchar | .char8 => some ⟨1, 1⟩
  | .short | .ushort | .char16 | .float16 => some ⟨2, 2⟩
  | .int | .uint | .char32 | .float => some ⟨4, 4⟩
  | .wchar => some ⟨wcharBytes, wcharBytes⟩
  | .long | .ulong => some ⟨longBytes, longBytes⟩
  | .longLong | .ulongLong | .double => some ⟨8, 8⟩
  | .int128 | .uint128 => some ⟨16, 16⟩
  | .longDouble =>
    if target.longDoubleFormat = .ieeeDouble then some ⟨8, 8⟩
    else if target.longDoubleStorageBytes > 0 then
      some ⟨target.longDoubleStorageBytes.toNat, (max 1 target.longDoubleAlignBytes).toNat⟩
    else some ⟨16, 16⟩
  | .other => none

/-- `size_align_of_type` -/
def sizeAlignOfType (target : TargetInfo) : LayoutType → Option TypeSizeAlign
  | .builtin kind => builtinSizeAlign kind target
  | .pointer | .reference =>
    some ⟨bytesForBits target.pointerWidth, bytesForBits target.pointerWidth⟩
  | .memberPointer pointsToFunction =>
    let pointerBytes := bytesForBits target.pointerWidth
    some ⟨if pointsToFunction then pointerBytes * 2 else pointerBytes, pointerBytes⟩
  | .function => some ⟨1, 1⟩
  | .array _ _ none => none
  | .array element _ (some count) =>
    match sizeAlignOfType target element with
    | none => none
    | some inner => some ⟨sizeT (inner.sizeBytes * count), inner.alignmentBytes⟩
  | .record _ none => none
  | .record _ (some facts) =>
    if facts.isIncomplete then none
    else
      some ⟨sizeT (facts.sizeBits + 7) / 8,
        if facts.alignment > 0 then facts.alignment else 1⟩
  | .enum none => some ⟨4, 4⟩
  | .enum (some underlying) => sizeAlignOfType target underlying
  | .vector none _ _ => none
  | .vector (some element) elementCount sizeBytes =>
    if elementCount = 0 ∨ sizeBytes = 0 then none
    else
      match sizeAlignOfType target element with
      | none => none
      | some inner =>
        let preferred := nextPowerOfTwo sizeBytes
        let capped := min preferred
          (if target.maxAlignmentBytes > 0 then target.maxAlignmentBytes else 1)
        some ⟨sizeBytes, max inner.alignmentBytes (max 1 capped)⟩
  | .complex none => none
  | .complex (some element) =>
    match sizeAlignOfType target element with
    | none => none
    | some inner => some ⟨sizeT (inner.sizeBytes * 2), inner.alignmentBytes⟩
  | .bitInt bits =>
    if bits = 0 ∨ bits > 128 then none
    else
      let bytes := doubleWhile (fun bytes => bytes * 8 < bits) bits 1
      some ⟨bytes, bytes⟩
  | .other => none

end Aburi.Layout
