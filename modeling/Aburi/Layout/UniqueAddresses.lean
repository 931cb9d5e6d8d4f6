import Aburi.Layout.PlatformLayout
import Mathlib.Data.List.Forall2

/-!
# Subobjects with one address

Pairs of different class subobjects of one object.  The search for a place keeps the
fields of a record apart, at every depth and also where `size_t` wraps, so that a
shared address always comes from an array: it repeats its element at the distance of
the element's size, and an empty subobject may lie beyond that size.
-/

namespace Aburi.Layout

open List

open Aburi.Cir (TypeId ArraySizeKind)

variable {target : TargetInfo}

/-- Two different class subobjects of an object, not in different members of one
union. -/
inductive DistinctSubobjects (target : TargetInfo) :
    Bool → LayoutType → ℕ → FootprintEntry → FootprintEntry → Prop where
  | wholeAndPart {withVirtual owner facts field base part}
      (isComplete : facts.isIncomplete = false) (member : field ∈ facts.fields)
      (listed : field.Listed withVirtual)
      (inside : ClassSubobject target (!field.isBaseSubobject) field.type
        (base + field.offset) part.1 part.2) :
      DistinctSubobjects target withVirtual (.record owner (some facts)) base (owner, base) part
  | inElements {withVirtual element sizeKind count size base first second} {i j : ℕ}
      (sized : typeSize target element = some size) (before : i < j)
      (within : j < count)
      (left : ClassSubobject target withVirtual element (base + i * size) first.1 first.2)
      (right : ClassSubobject target withVirtual element (base + j * size)
        second.1 second.2) :
      DistinctSubobjects target withVirtual (.array element sizeKind (some count)) base first second
  | inElement {withVirtual element sizeKind count size base i first second}
      (sized : typeSize target element = some size) (within : i < count)
      (inside : DistinctSubobjects target withVirtual element
        (base + i * size) first second) :
      DistinctSubobjects target withVirtual (.array element sizeKind (some count)) base first second
  | inFields {withVirtual owner base first second} {i j : ℕ} {facts : RecordFacts}
      {field other : RecordFieldFact}
      (isComplete : facts.isIncomplete = false) (notUnion : facts.kind ≠ .union)
      (before : i < j) (here : facts.fields[i]? = some field)
      (there : facts.fields[j]? = some other)
      (listed : field.Listed withVirtual) (otherListed : other.Listed withVirtual)
      (left : ClassSubobject target (!field.isBaseSubobject) field.type
        (base + field.offset) first.1 first.2)
      (right : ClassSubobject target (!other.isBaseSubobject) other.type
        (base + other.offset) second.1 second.2) :
      DistinctSubobjects target withVirtual (.record owner (some facts)) base first second
  | inField {withVirtual owner facts field base first second}
      (isComplete : facts.isIncomplete = false) (member : field ∈ facts.fields)
      (listed : field.Listed withVirtual)
      (inside : DistinctSubobjects target (!field.isBaseSubobject) field.type
        (base + field.offset) first second) :
      DistinctSubobjects target withVirtual (.record owner (some facts)) base first second

/-- Somewhere in the type there is an array whose element has a class subobject that
lies `distance` sizes of the element beyond another one of its class. -/
inductive ArrayClash (target : TargetInfo) : Bool → LayoutType → Prop where
  | here {withVirtual element sizeKind count size distance id address}
      (sized : typeSize target element = some size) (positive : 0 < distance)
      (within : distance < count)
      (first : ClassSubobject target withVirtual element 0 id address)
      (repeated : ClassSubobject target withVirtual element 0 id (address + distance * size)) :
      ArrayClash target withVirtual (.array element sizeKind (some count))
  | inElement {withVirtual element sizeKind count size}
      (sized : typeSize target element = some size) (nonEmpty : 0 < count)
      (inside : ArrayClash target withVirtual element) :
      ArrayClash target withVirtual (.array element sizeKind (some count))
  | inField {withVirtual owner facts field}
      (isComplete : facts.isIncomplete = false) (member : field ∈ facts.fields)
      (listed : field.Listed withVirtual)
      (inside : ArrayClash target (!field.isBaseSubobject) field.type) :
      ArrayClash target withVirtual (.record owner (some facts))

/-- Somewhere in the type there is an array whose element has a class subobject at or
past its size. -/
inductive ArrayOverhang (target : TargetInfo) : Bool → LayoutType → Prop where
  | here {withVirtual element sizeKind count size id address}
      (sized : typeSize target element = some size)
      (inside : ClassSubobject target withVirtual element 0 id address) (past : size ≤ address) :
      ArrayOverhang target withVirtual (.array element sizeKind (some count))
  | inElement {withVirtual element sizeKind count}
      (inside : ArrayOverhang target withVirtual element) :
      ArrayOverhang target withVirtual (.array element sizeKind (some count))
  | inField {withVirtual owner facts field}
      (isComplete : facts.isIncomplete = false) (member : field ∈ facts.fields)
      (listed : field.Listed withVirtual)
      (inside : ArrayOverhang target (!field.isBaseSubobject) field.type) :
      ArrayOverhang target withVirtual (.record owner (some facts))

/-- A type whose complete records got their fields from a layout, and where no record
is nested in itself. -/
inductive LaidOut (target : TargetInfo) : LayoutType → Prop where
  | computed {id facts} (context : LayoutContext) (inputs : List RecordFieldFact)
      {info : RecordLayoutInfo} (sameTarget : context.target = target)
      (ran : context.computeRecordLayout facts.kind inputs = some info)
      (fields : facts.fields = info.fields)
      (inner : ∀ field ∈ inputs, LaidOut target field.type)
      (fresh : ∀ field ∈ inputs, ∀ withVirtual base address,
        ¬ClassSubobject target withVirtual field.type base id address) :
      LaidOut target (.record id (some facts))
  | incomplete {id facts} (isIncomplete : facts.isIncomplete = true) :
      LaidOut target (.record id (some facts))
  | declared {id} : LaidOut target (.record id none)
  | array {element sizeKind size} (inner : LaidOut target element) :
      LaidOut target (.array element sizeKind size)
  | scalar {type} (noRecord : ∀ id facts, type ≠ .record id facts)
      (noArray : ∀ element sizeKind size, type ≠ .array element sizeKind size) :
      LaidOut target type

variable {withVirtual : Bool} {type : LayoutType} {id : TypeId}

section

variable {base : ℕ} {address : ℕ}
  (subobject : ClassSubobject target withVirtual type base id address)
include subobject

theorem ClassSubobject.base_le : base ≤ address := by
  induction subobject with
  | whole => exact le_rfl
  | element _ _ _ induction | field _ _ _ _ _ _ induction =>
    exact (Nat.le_add_right _ _).trans induction

theorem ClassSubobject.move (distance : ℕ) :
    ClassSubobject target withVirtual type (distance + base) id (distance + address) := by
  induction subobject with
  | whole => exact .whole
  | element sized within _ induction =>
    rw [← Nat.add_assoc] at induction
    exact .element sized within induction
  | field isComplete member ordinary bounded placedHere _ induction =>
    rw [← Nat.add_assoc] at induction
    exact .field isComplete member ordinary bounded placedHere induction

theorem ClassSubobject.unmove {distance rest : ℕ} (far : base = distance + rest) :
    ClassSubobject target withVirtual type rest id (address - distance) := by
  induction subobject generalizing rest with
  | whole =>
    have back : rest = distance + rest - distance := by omega
    rw [far, ← back]
    exact .whole
  | element sized within _ induction =>
    exact .element sized within (induction (by omega))
  | field isComplete member ordinary bounded placedHere _ induction =>
    exact .field isComplete member ordinary bounded placedHere (induction (by omega))

end

/-- No subobject of the one field, placed as it is, is one of the other. -/
def FieldsApart (target : TargetInfo) (field other : RecordFieldFact) : Prop :=
  field.isBitfield = false → other.isBitfield = false → ∀ id address,
    ClassSubobject target (!field.isBaseSubobject) field.type field.offset id address →
      ¬ClassSubobject target (!other.isBaseSubobject) other.type other.offset id address

/-- What the layout leaves as it is in a field. -/
structure KeepsField (field placed : RecordFieldFact) : Prop where
  type : placed.type = field.type
  isBitfield : placed.isBitfield = field.isBitfield
  isFlexible : placed.isFlexibleArrayMember = field.isFlexibleArrayMember
  isBase : placed.isBaseSubobject = field.isBaseSubobject
  isVirtual : placed.isVirtualBaseStorage = field.isVirtualBaseStorage

theorem KeepsField.refl (field : RecordFieldFact) : KeepsField field field :=
  ⟨rfl, rfl, rfl, rfl, rfl⟩

theorem KeepsField.trans {field placed other : RecordFieldFact}
    (first : KeepsField field placed) (second : KeepsField placed other) :
    KeepsField field other := by
  constructor
  · rw [second.type, first.type]
  · rw [second.isBitfield, first.isBitfield]
  · rw [second.isFlexible, first.isFlexible]
  · rw [second.isBase, first.isBase]
  · rw [second.isVirtual, first.isVirtual]

theorem KeepsField.listed {field placed : RecordFieldFact} (keeps : KeepsField field placed)
    (withVirtual : Bool) : placed.Listed withVirtual ↔ field.Listed withVirtual := by
  unfold RecordFieldFact.Listed
  rw [keeps.isBitfield, keeps.isFlexible, keeps.isVirtual]

variable {context : LayoutContext}

theorem toTargetBitOffset_keeps (field : RecordFieldFact) :
    KeepsField field (context.toTargetBitOffset field) := by
  unfold LayoutContext.toTargetBitOffset
  split
  · exact .refl field
  · split
    · exact ⟨rfl, rfl, rfl, rfl, rfl⟩
    · exact .refl field

theorem placeBitfield_keeps (state : LayoutState) (field : RecordFieldFact)
    (size align : ℕ) :
    (context.placeBitfield state field size align).1.occupied = state.occupied ∧
      KeepsField field (context.placeBitfield state field size align).2 := by
  have moved : ∀ offset bits storage, KeepsField field
      (context.toTargetBitOffset
        { field with offset := offset, bitOffset := bits, storageSize := storage }) := by
    intro offset bits storage
    apply KeepsField.trans _ (toTargetBitOffset_keeps _)
    exact ⟨rfl, rfl, rfl, rfl, rfl⟩
  unfold LayoutContext.placeBitfield
  dsimp only
  split
  · unfold LayoutContext.placeZeroWidth
    dsimp only
    constructor
    · split <;> rfl
    · exact ⟨rfl, rfl, rfl, rfl, rfl⟩
  · split
    · unfold LayoutContext.placeMsvcBitfield
      dsimp only
      constructor
      · split <;> rfl
      · exact ⟨rfl, rfl, rfl, rfl, rfl⟩
    · split
      · exact ⟨rfl, moved _ _ _⟩
      · split
        · exact ⟨rfl, moved _ _ _⟩
        · exact ⟨rfl, moved _ _ _⟩

theorem leaveMsvcUnit_occupied (state : LayoutState) :
    (context.leaveMsvcUnit state).occupied = state.occupied := by
  unfold LayoutContext.leaveMsvcUnit
  split <;> rfl

theorem settleField_keeps (state : LayoutState) (field : RecordFieldFact)
    (size candidate : ℕ) :
    let out := context.settleField state field size candidate
    KeepsField field out.2 ∧ out.2.offset = candidate ∧
      out.1.occupied = state.occupied ++ context.fieldFootprint field candidate := by
  unfold LayoutContext.settleField
  dsimp only
  split
  · exact ⟨⟨rfl, rfl, rfl, rfl, rfl⟩, rfl, rfl⟩
  · exact ⟨⟨rfl, rfl, rfl, rfl, rfl⟩, rfl, rfl⟩

theorem classify_keeps (field : RecordFieldFact) :
    KeepsField field (context.classifySubobjectSize field) :=
  ⟨rfl, rfl, rfl, rfl, rfl⟩

/-- No subobject of the placed field is occupied. -/
def AvoidsOccupied (target : TargetInfo) (occupied : List FootprintEntry)
    (field : RecordFieldFact) : Prop :=
  field.isBitfield = false → ∀ id address,
    ClassSubobject target (!field.isBaseSubobject) field.type field.offset id address →
      (id, sizeT address) ∉ occupied

/-- What a turn leaves: the field where it was placed, and its class subobjects among
the occupied addresses. -/
structure Placed (target : TargetInfo) (occupied : List FootprintEntry)
    (field : RecordFieldFact) (out : LayoutState × RecordFieldFact) : Prop where
  keeps : KeepsField field out.2
  lists : ∀ entry, entry ∈ out.1.occupied ↔ entry ∈ occupied ∨
    out.2.isBitfield = false ∧ ∃ address, ClassSubobject target (!out.2.isBaseSubobject)
      out.2.type out.2.offset entry.1 address ∧ entry.2 = sizeT address
  avoids : AvoidsOccupied target occupied out.2

theorem placeField_placed {state : LayoutState} {field : RecordFieldFact}
    (notBits : field.isBitfield = false) (size align : ℕ) {out : LayoutState × RecordFieldFact}
    (ran : context.placeField state field size align = some out) :
    Placed context.target state.occupied field out := by
  unfold LayoutContext.placeField at ran
  obtain ⟨candidate, ended, rfl⟩ := Option.map_eq_some_iff.mp ran
  rw [leaveMsvcUnit_occupied] at ended
  obtain ⟨free, counted⟩ := fieldCandidate_free ended
  obtain ⟨keeps, offset, occupied⟩ :=
    @settleField_keeps context (context.leaveMsvcUnit state) field size candidate
  rw [leaveMsvcUnit_occupied] at occupied
  generalize context.settleField (context.leaveMsvcUnit state) field size candidate = out at *
  refine ⟨keeps, ?_, ?_⟩
  · intro entry
    rw [occupied, mem_append, keeps.isBase, keeps.type, keeps.isBitfield, offset]
    unfold LayoutContext.fieldFootprint
    conv_lhs => rw [← sizeT_of_lt counted]
    rw [mem_appendRecordFootprint_iff]
    simp [notBits]
  · intro _ id address inside taken
    rw [keeps.isBase, keeps.type, offset] at inside
    have conflict := (fieldConflicts_iff counted).mpr ⟨id, address, inside, taken⟩
    rw [free] at conflict
    contradiction

theorem layoutField_placed {isLast : Bool} {state : LayoutState} {field : RecordFieldFact}
    {out : LayoutState × RecordFieldFact}
    (ran : context.layoutField isLast state field = some out) :
    Placed context.target state.occupied field out := by
  unfold LayoutContext.layoutField at ran
  dsimp only at ran
  split at ran
  · rename_i isBits
    obtain rfl := Option.some.inj ran
    obtain ⟨occupied, keeps⟩ := @placeBitfield_keeps context (context.noteField isLast state field)
      field (if (isLast && field.isFlexibleArrayMember) = true then 0
        else (context.fieldSizeAlign field).1) (context.fieldSizeAlign field).2.1
    have stillBits := keeps.isBitfield.trans isBits
    refine ⟨keeps, ?_, ?_⟩
    · intro entry
      rw [occupied, stillBits]
      simp [LayoutContext.noteField]
    · intro notBits
      rw [stillBits] at notBits
      contradiction
  · rename_i notBits
    exact @placeField_placed context (context.noteField isLast state field) field
      (by simpa using notBits) _ _ _ ran

theorem layoutFields_apart {fields : List RecordFieldFact} {state : LayoutState}
    {run : LayoutState × List RecordFieldFact}
    (ran : context.layoutFields state fields = some run) :
    Forall₂ KeepsField fields run.2 ∧ run.2.Pairwise (FieldsApart context.target) ∧
      ∀ field ∈ run.2, AvoidsOccupied context.target state.occupied field := by
  induction fields generalizing state run with
  | nil =>
    obtain rfl := Option.some.inj ran
    exact ⟨.nil, .nil, by simp⟩
  | cons field rest induction =>
    unfold LayoutContext.layoutFields at ran
    split at ran
    · contradiction
    · rename_i next placed turned
      obtain ⟨others, othersRan, rfl⟩ := Option.map_eq_some_iff.mp ran
      obtain ⟨keeps, occupied, avoids⟩ := layoutField_placed turned
      obtain ⟨restKeeps, restApart, restAvoids⟩ := induction othersRan
      refine ⟨.cons keeps restKeeps, ?_, ?_⟩
      · apply List.Pairwise.cons _ restApart
        intro other member notBits otherNotBits id address here there
        exact restAvoids other member otherNotBits id address there
          ((occupied _).mpr (Or.inr ⟨notBits, address, here, rfl⟩))
      · intro other member
        rcases List.mem_cons.mp member with rfl | later
        · exact avoids
        · intro notBits id address inside taken
          exact restAvoids other later notBits id address inside ((occupied _).mpr (Or.inl taken))

theorem layoutUnionField_keeps (isLast : Bool) (state : LayoutContext.UnionState)
    (field : RecordFieldFact) :
    KeepsField field (context.layoutUnionField isLast state field).2 ∧
      (context.layoutUnionField isLast state field).2.offset = 0 := by
  unfold LayoutContext.layoutUnionField
  dsimp only
  by_cases isBits : field.isBitfield = true
  · rw [if_pos isBits]
    exact ⟨⟨rfl, rfl, rfl, rfl, rfl⟩, rfl⟩
  · rw [if_neg isBits]
    exact ⟨⟨rfl, rfl, rfl, rfl, rfl⟩, rfl⟩

theorem layoutUnionFields_keeps (fields : List RecordFieldFact)
    (state : LayoutContext.UnionState) :
    Forall₂ KeepsField fields (context.layoutUnionFields state fields).2 := by
  induction fields generalizing state with
  | nil => exact .nil
  | cons field rest induction =>
    exact .cons (layoutUnionField_keeps rest.isEmpty state field).1 (induction _)

theorem forall₂_classify {fields placed : List RecordFieldFact}
    (keeps : Forall₂ KeepsField (fields.map context.classifySubobjectSize) placed) :
    Forall₂ KeepsField fields placed := by
  rw [forall₂_map_left_iff] at keeps
  exact keeps.imp fun field _ kept => (classify_keeps field).trans kept

section

variable {kind : RecordKind} {fields : List RecordFieldFact} {info : RecordLayoutInfo}
  (ran : context.computeRecordLayout kind fields = some info)
include ran

theorem computeRecordLayout_keeps : Forall₂ KeepsField fields info.fields := by
  unfold LayoutContext.computeRecordLayout at ran
  split at ran
  · rename_i isEmpty
    obtain rfl := Option.some.inj ran
    rw [List.isEmpty_iff.mp isEmpty]
    exact .nil
  · split at ran
    · obtain rfl := Option.some.inj ran
      exact forall₂_classify (layoutUnionFields_keeps _ _)
    · obtain ⟨run, fieldsRan, rfl⟩ := Option.map_eq_some_iff.mp ran
      exact forall₂_classify (layoutFields_apart fieldsRan).1

theorem computeRecordLayout_apart (notUnion : kind ≠ .union) :
    info.fields.Pairwise (FieldsApart context.target) := by
  unfold LayoutContext.computeRecordLayout at ran
  split at ran
  · obtain rfl := Option.some.inj ran
    exact .nil
  · have sequence : context.layoutSequence (fields.map context.classifySubobjectSize) =
        some info := by simpa [notUnion] using ran
    obtain ⟨run, fieldsRan, rfl⟩ := Option.map_eq_some_iff.mp sequence
    exact (layoutFields_apart fieldsRan).2.1

end

theorem exists_input_of_mem {fields placed : List RecordFieldFact}
    (keeps : Forall₂ KeepsField fields placed) {field : RecordFieldFact}
    (member : field ∈ placed) : ∃ input ∈ fields, KeepsField input field := by
  induction keeps with
  | nil => contradiction
  | cons kept _ induction =>
    rcases List.mem_cons.mp member with rfl | later
    · exact ⟨_, mem_cons_self, kept⟩
    · obtain ⟨input, inputMember, inputKept⟩ := induction later
      exact ⟨input, mem_cons_of_mem _ inputMember, inputKept⟩

section

variable {facts : RecordFacts} (laidOut : LaidOut target (.record id (some facts)))
  (isComplete : facts.isIncomplete = false)
include laidOut isComplete

/-- In a complete record that has been laid out, the fields have been laid out, and
none of them contains the record. -/
theorem LaidOut.field {field : RecordFieldFact} (member : field ∈ facts.fields) :
    LaidOut target field.type ∧ ∀ withVirtual base address,
      ¬ClassSubobject target withVirtual field.type base id address := by
  cases laidOut with
  | computed context inputs _ ran fields inner fresh =>
    rw [fields] at member
    obtain ⟨input, inputMember, kept⟩ := exists_input_of_mem (computeRecordLayout_keeps ran) member
    rw [kept.type]
    exact ⟨inner input inputMember, fresh input inputMember⟩
  | incomplete isIncomplete =>
    rw [isComplete] at isIncomplete
    contradiction
  | scalar noRecord _ => exact absurd rfl (noRecord _ _)

theorem LaidOut.fieldsApart (notUnion : facts.kind ≠ .union) :
    facts.fields.Pairwise (FieldsApart target) := by
  cases laidOut with
  | computed context inputs sameTarget ran fields _ _ =>
    rw [fields, ← sameTarget]
    exact computeRecordLayout_apart ran notUnion
  | incomplete isIncomplete =>
    rw [isComplete] at isIncomplete
    contradiction
  | scalar noRecord _ => exact absurd rfl (noRecord _ _)

end

theorem LaidOut.element {element : LayoutType} {sizeKind : ArraySizeKind} {size : Option ℕ}
    (laidOut : LaidOut target (.array element sizeKind size)) : LaidOut target element := by
  cases laidOut with
  | array inner => exact inner
  | scalar _ noArray => exact absurd rfl (noArray _ _ _)

/-- The two subobjects, moved to the distance of the record, stay apart. -/
theorem FieldsApart.moved {field other : RecordFieldFact} (apart : FieldsApart target field other)
    (notBits : field.isBitfield = false) (otherNotBits : other.isBitfield = false) {base : ℕ}
    {address : ℕ} (left : ClassSubobject target (!field.isBaseSubobject) field.type
      (base + field.offset) id address) :
    ¬ClassSubobject target (!other.isBaseSubobject) other.type (base + other.offset) id
      address := fun right =>
  apart notBits otherNotBits id (address - base) (left.unmove rfl) (right.unmove rfl)

/-- Without a clash in an array, different subobjects of one class have different
addresses. -/
theorem DistinctSubobjects.ne {base : ℕ} {first second : FootprintEntry}
    (pair : DistinctSubobjects target withVirtual type base first second)
    (laidOut : LaidOut target type) (noClash : ¬ArrayClash target withVirtual type) :
    first ≠ second := by
  induction pair with
  | wholeAndPart isComplete member _ inside =>
    rintro rfl
    exact (laidOut.field isComplete member).2 _ _ _ inside
  | @inElements _ _ _ count size base first second i j sized before within left right =>
    rintro rfl
    have reached := right.base_le
    have far : j * size = i * size + (j - i) * size := by
      rw [← Nat.add_mul]
      congr 1
      omega
    have same : first.2 - (base + i * size) =
        first.2 - (base + j * size) + (j - i) * size := by omega
    have repeated : ClassSubobject target _ _ 0 first.1 (first.2 - (base + i * size)) :=
      left.unmove rfl
    rw [same] at repeated
    exact noClash (.here sized (by omega) (by omega) (right.unmove rfl) repeated)
  | inElement sized within _ induction =>
    apply induction laidOut.element
    intro clash
    exact noClash (.inElement sized (Nat.zero_lt_of_lt within) clash)
  | inFields isComplete notUnion before here there listed otherListed left right =>
    rintro rfl
    have pairwise := laidOut.fieldsApart isComplete notUnion
    obtain ⟨inRange, isHere⟩ := List.getElem?_eq_some_iff.mp here
    obtain ⟨otherInRange, isThere⟩ := List.getElem?_eq_some_iff.mp there
    have apart := List.pairwise_iff_getElem.mp pairwise _ _ inRange otherInRange before
    rw [isHere, isThere] at apart
    exact apart.moved listed.1 otherListed.1 left right
  | inField isComplete member listed _ induction =>
    apply induction (laidOut.field isComplete member).1
    intro clash
    exact noClash (.inField isComplete member listed clash)

theorem ArrayClash.pair (clash : ArrayClash target withVirtual type) (base : ℕ) :
    ∃ entry, DistinctSubobjects target withVirtual type base entry entry := by
  induction clash generalizing base with
  | @here _ _ _ _ size distance id address sized positive within first repeated =>
    have left := repeated.move (base + 0 * size)
    have right := first.move (base + distance * size)
    have same : base + distance * size + address =
        base + 0 * size + (address + distance * size) := by omega
    rw [same, Nat.add_zero] at right
    rw [Nat.add_zero] at left
    exact ⟨(id, base + 0 * size + (address + distance * size)),
      .inElements sized positive within left right⟩
  | inElement sized nonEmpty _ induction =>
    obtain ⟨entry, pair⟩ := induction _
    exact ⟨entry, .inElement sized nonEmpty pair⟩
  | inField isComplete member listed _ induction =>
    obtain ⟨entry, pair⟩ := induction _
    exact ⟨entry, .inField isComplete member listed pair⟩

theorem ArrayClash.overhang (clash : ArrayClash target withVirtual type) :
    ArrayOverhang target withVirtual type := by
  induction clash with
  | @here _ _ _ _ size distance id address sized positive within first repeated =>
    apply ArrayOverhang.here sized repeated
    exact (Nat.le_mul_of_pos_left size positive).trans (Nat.le_add_left _ _)
  | inElement _ _ _ induction => exact .inElement induction
  | inField isComplete member listed _ induction => exact .inField isComplete member listed induction

end Aburi.Layout
