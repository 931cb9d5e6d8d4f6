import Aburi.Layout.Subobjects

/-!
# The layout of the platform

What the Itanium C++ ABI, and C, say about a record without bit-fields, over the
size and the effective alignment of each field.  A non-empty field goes to the
first multiple of its alignment from the end of the data on at which no two
subobjects of one class share an address; an empty base or an empty
`no_unique_address` member goes to the origin if it can.  C knows no such clash.

The platform counts without a bound: a record that does not fit into `size_t` has a
layout here, and no computed one is equal to it.
-/

namespace Aburi.Layout

open Aburi.Lib (alignTo)

/-- A base or `no_unique_address` member of an empty class, where the ABI knows
subobjects of size zero. -/
def IsEmptySubobject (context : LayoutContext) (field : RecordFieldFact) : Prop :=
  context.policy.cxxAbi = .itanium ∧
    (field.isBaseSubobject = true ∨ field.isNoUniqueAddress = true) ∧
    field.isBitfield = false ∧ context.isDependentType field.type = false ∧
    ∃ id facts, field.type = .record id (some facts) ∧ facts.isEmpty = .true

theorem classifySubobjectSize_zero_iff (context : LayoutContext)
    (field : RecordFieldFact) :
    (context.classifySubobjectSize field).subobjectSize = .zero ↔
      IsEmptySubobject context field := by
  unfold LayoutContext.classifySubobjectSize IsEmptySubobject
  dsimp only
  by_cases isItanium : context.policy.cxxAbi = .itanium
  · cases isBase : field.isBaseSubobject <;>
      cases isNoUnique : field.isNoUniqueAddress <;>
      cases isBits : field.isBitfield <;>
      cases isDependent : context.isDependentType field.type <;>
      simp [isItanium]
    all_goals
      cases field.type with
      | record id facts =>
        cases facts with
        | none => simp
        | some facts => cases isEmpty : facts.isEmpty <;> simp [isEmpty]
      | _ => simp
  · simp [isItanium]

/-- The fields placed so far. -/
structure PlatformState where
  /-- the end of the non-empty fields -/
  dataEnd : ℕ := 0
  /-- the end of all fields -/
  fieldsEnd : ℕ := 0
  /-- the end of all fields when an empty one counts for a single byte -/
  markedEnd : ℕ := 0
  alignment : ℕ := 1
  /-- the class subobjects and their addresses -/
  occupied : Set FootprintEntry := ∅

/-- The size of a field in its record, counted without a bound; a flexible array at
the end has none. -/
def fieldSize (context : LayoutContext) (isLast : Bool) (field : RecordFieldFact) : ℕ :=
  let computed := (context.fieldSizeAlign field).1
  if isLast && field.isFlexibleArrayMember then 0
  else if field.storageSizeOverride > 0 then computed
  else
    match field.type with
    | .array _ .incomplete _ => computed
    | type => (typeSize context.target type).getD computed

def effectiveAlign (context : LayoutContext) (field : RecordFieldFact) : ℕ :=
  (context.fieldSizeAlign field).2.1

/-- At this offset a class subobject of the field has the address of one of the same
class. -/
def SharesAddress (context : LayoutContext) (state : PlatformState)
    (field : RecordFieldFact) (offset : ℕ) : Prop :=
  ∃ id address,
    ClassSubobject context.target (!field.isBaseSubobject) field.type offset id address ∧
      (id, address) ∈ state.occupied

/-- C++ keeps the addresses of two subobjects of one class apart. -/
def Clashes (context : LayoutContext) (state : PlatformState) (field : RecordFieldFact)
    (offset : ℕ) : Prop :=
  context.isCxxMode = true ∧ SharesAddress context state field offset

/-- The first offset from the end of the data on that causes no clash. -/
def IsFirstAfterData (context : LayoutContext) (state : PlatformState)
    (field : RecordFieldFact) (offset : ℕ) : Prop :=
  IsLeast {candidate | state.dataEnd ≤ candidate ∧
    effectiveAlign context field ∣ candidate ∧
    ¬Clashes context state field candidate} offset

def IsPlatformOffset (context : LayoutContext) (state : PlatformState)
    (field : RecordFieldFact) (offset : ℕ) : Prop :=
  (IsEmptySubobject context field ∧ ¬Clashes context state field 0 ∧ offset = 0) ∨
    (¬(IsEmptySubobject context field ∧ ¬Clashes context state field 0) ∧
      IsFirstAfterData context state field offset)

/-- The class subobjects of a field at an offset. -/
def fieldSubobjects (context : LayoutContext) (field : RecordFieldFact) (offset : ℕ) :
    Set FootprintEntry :=
  {entry | ClassSubobject context.target (!field.isBaseSubobject) field.type offset entry.1 entry.2}

open Classical in
/-- The state after a field has been placed. -/
noncomputable def PlatformState.place (context : LayoutContext) (state : PlatformState)
    (isLast : Bool) (field : RecordFieldFact) (offset : ℕ) : PlatformState :=
  let fieldEnd := offset + fieldSize context isLast field
  { dataEnd :=
      if IsEmptySubobject context field then state.dataEnd
      else max state.dataEnd fieldEnd
    fieldsEnd := max state.fieldsEnd fieldEnd
    markedEnd :=
      max state.markedEnd (if IsEmptySubobject context field then offset + 1 else fieldEnd)
    alignment := max state.alignment (effectiveAlign context field)
    occupied := state.occupied ∪ fieldSubobjects context field offset }

/-- The fields are placed one after the other at the offsets of the platform. -/
inductive PlacedByPlatform (context : LayoutContext) :
    PlatformState → List RecordFieldFact → List ℕ → PlatformState → Prop where
  | nil {state} : PlacedByPlatform context state [] [] state
  | cons {state field rest offset offsets final}
      (here : IsPlatformOffset context state field offset)
      (others : PlacedByPlatform context
        (state.place context rest.isEmpty field offset) rest offsets final) :
      PlacedByPlatform context state (field :: rest) (offset :: offsets) final

/-- The alignment of a record whose fields need `alignment`. -/
def platformAlignment (context : LayoutContext) (alignment : ℕ) : ℕ :=
  max (max 1 context.requestedAlignment) alignment

/-- The end of the fields, rounded up; no object of C++ has the size zero. -/
def platformSize (context : LayoutContext) (fieldsEnd alignment : ℕ) : ℕ :=
  alignTo (if context.isCxxMode then max 1 fieldsEnd else fieldsEnd)
    (platformAlignment context alignment)

/-- The record has the layout of the platform. -/
def IsPlatformLayout (context : LayoutContext) (fields : List RecordFieldFact)
    (info : RecordLayoutInfo) : Prop :=
  ∃ final, PlacedByPlatform context {} fields (info.fields.map (·.offset)) final ∧
    info.alignment = platformAlignment context final.alignment ∧
    info.sizeBits = platformSize context final.fieldsEnd final.alignment * 8

variable {context : LayoutContext} {state : PlatformState} {field : RecordFieldFact}

theorem effectiveAlign_pos (context : LayoutContext) (field : RecordFieldFact) :
    0 < effectiveAlign context field := by
  have limited : ∀ chosen, 0 <
      if context.isPacked ∧ field.storageAlignmentOverride = 0 ∧ field.forcedAlignment = 0
        then 1
      else if (field.storageAlignmentOverride = 0 ∧ field.forcedAlignment = 0) ∧
          ¬context.isPacked ∧ context.packAlignment > 0 ∧
          max 1 chosen > context.packAlignment then context.packAlignment
        else max 1 chosen := by
    intro chosen
    split
    · exact Nat.one_pos
    · split
      · rename_i capped
        exact capped.2.2.1
      · exact Nat.lt_of_lt_of_le Nat.one_pos (le_max_left 1 _)
  have positive : ∀ typeAlign, 0 < context.fieldAlign field typeAlign := fun _ =>
    limited _
  unfold effectiveAlign LayoutContext.fieldSizeAlign
  split <;> split <;> simp only [positive, Nat.one_pos]

theorem sizeAlignOfType_typeSize {type : LayoutType} {computed : TypeSizeAlign} {size : ℕ}
    (sized : sizeAlignOfType context.target type = some computed)
    (counted : typeSize context.target type = some size) (fits : size < 2 ^ 64) :
    computed.sizeBytes = size := by
  have agrees : SizeAgrees context.target type := sizeAgrees type
  obtain ⟨other, otherSize, isOther, isSize, same⟩ := agrees.resolve_right
    (fun unsized => by simp [sized] at unsized)
  obtain rfl : computed = other := by simpa [sized] using isOther
  obtain rfl : size = otherSize := by simpa [counted] using isSize
  rcases same with same | same
  · exact same
  · rw [same, sizeT_of_lt fits]

/-- Of a size that fits, `size_t` loses nothing. -/
theorem fieldSize_of_lt {isLast : Bool} (fits : fieldSize context isLast field < 2 ^ 64) :
    (if isLast && field.isFlexibleArrayMember then 0 else (context.fieldSizeAlign field).1) =
      fieldSize context isLast field := by
  unfold fieldSize at fits ⊢
  dsimp only at fits ⊢
  split at fits
  · rename_i isTail
    rw [if_pos isTail, if_pos isTail]
  · rename_i notTail
    rw [if_neg notTail, if_neg notTail]
    split at fits
    · rename_i overridden
      rw [if_pos overridden]
    · rename_i notOverridden
      rw [if_neg notOverridden]
      have natural : field.storageSizeOverride = 0 := by omega
      split at fits
      · rfl
      · rename_i notIncomplete
        cases counted : typeSize context.target field.type with
        | none => rfl
        | some size =>
          rw [counted] at fits
          have agrees : SizeAgrees context.target field.type := sizeAgrees field.type
          obtain ⟨computed, _, sized, _, _⟩ := agrees.resolve_right
            (fun unsized => by simp [counted] at unsized)
          have same := sizeAlignOfType_typeSize sized counted fits
          have fromSession : context.sizeAlignOfType field.type = some computed := by
            unfold LayoutContext.sizeAlignOfType
            rw [sized]
          unfold LayoutContext.fieldSizeAlign
          split
          · rename_i element sizeKind isArray
            exact absurd isArray (notIncomplete _ _)
          · rw [fromSession]
            simp only [natural, Nat.lt_irrefl, if_false, and_true, same, Option.getD_some]
            split <;> omega

end Aburi.Layout
