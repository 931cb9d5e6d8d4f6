import Aburi.Layout.RecordLayout

/-!
# Class subobjects and the search for a place

What a footprint lists: the class subobjects of an object at every nesting
depth, each with its address as `size_t` counts it.  The search of a field takes
one multiple of the alignment after the other; it stops on the first free one below
`2 ^ 64`, and when it has passed that bound it may come back below its start.
-/

namespace Aburi.Layout

open List

open Aburi.Cir (TypeId)
open Aburi.Lib (alignTo firstFit)

/-- The size of a type, counted without a bound. -/
def typeSize (target : TargetInfo) : LayoutType → Option ℕ
  | .array element _ (some count) => (typeSize target element).map (· * count)
  | .enum (some underlying) => typeSize target underlying
  | .complex (some element) => (typeSize target element).map (· * 2)
  | type => (sizeAlignOfType target type).map (·.sizeBytes)

/-- An object of the given type at address `base` has a subobject of class `id` at
`address`.  A base leaves out its virtual bases, which are placed once, in the
complete object. -/
inductive ClassSubobject (target : TargetInfo) :
    Bool → LayoutType → ℕ → TypeId → ℕ → Prop where
  | whole {withVirtual id facts base} :
      ClassSubobject target withVirtual (.record id facts) base id base
  | element {withVirtual element sizeKind count size base index id address}
      (sized : typeSize target element = some size) (within : index < count)
      (inside : ClassSubobject target withVirtual element
        (base + index * size) id address) :
      ClassSubobject target withVirtual (.array element sizeKind (some count)) base id address
  | field {withVirtual owner facts field base id address}
      (isComplete : facts.isIncomplete = false) (member : field ∈ facts.fields)
      (ordinary : field.isBitfield = false)
      (bounded : field.isFlexibleArrayMember = false)
      (placedHere : field.isVirtualBaseStorage = true → withVirtual = true)
      (inside : ClassSubobject target (!field.isBaseSubobject) field.type
        (base + field.offset) id address) :
      ClassSubobject target withVirtual (.record owner (some facts)) base id address

variable {target : TargetInfo}

/-- What a layout computes is the size without a bound, or what `size_t` keeps of
it. -/
def SizeAgrees (target : TargetInfo) (type : LayoutType) : Prop :=
  (∃ computed size, sizeAlignOfType target type = some computed ∧
    typeSize target type = some size ∧
    (computed.sizeBytes = size ∨ computed.sizeBytes = sizeT size)) ∨
  (sizeAlignOfType target type = none ∧ typeSize target type = none)

theorem SizeAgrees.of_map {type : LayoutType}
    (same : typeSize target type = (sizeAlignOfType target type).map (·.sizeBytes)) :
    SizeAgrees target type := by
  unfold SizeAgrees
  rw [same]
  cases sizeAlignOfType target type <;> simp

theorem SizeAgrees.times {element type : LayoutType} {count : ℕ}
    (agrees : SizeAgrees target element)
    (computed : sizeAlignOfType target type = (sizeAlignOfType target element).map
      fun inner => ⟨sizeT (inner.sizeBytes * count), inner.alignmentBytes⟩)
    (sized : typeSize target type = (typeSize target element).map (· * count)) :
    SizeAgrees target type := by
  unfold SizeAgrees
  rw [computed, sized]
  rcases agrees with ⟨inner, size, isInner, isSize, same | same⟩ | ⟨isInner, isSize⟩
  · simp [isInner, isSize, same]
  · simp [isInner, isSize, same, sizeT]
  · simp [isInner, isSize]

theorem sizeAgrees : (type : LayoutType) → SizeAgrees target type
  | .array element _ (some count) => by
      apply (sizeAgrees element).times
      · rw [sizeAlignOfType]
        cases sizeAlignOfType target element <;> rfl
      · rfl
  | .enum (some underlying) => sizeAgrees underlying
  | .complex (some element) => by
      apply (sizeAgrees element).times
      · rw [sizeAlignOfType]
        cases sizeAlignOfType target element <;> rfl
      · rfl
  | .builtin _ | .pointer | .reference | .memberPointer _ | .function | .array _ _ none
  | .record _ _ | .enum none | .vector _ _ _ | .complex none | .bitInt _ | .other => .of_map rfl

/-- A field of a record whose subobjects are subobjects of the record. -/
def RecordFieldFact.Listed (field : RecordFieldFact) (withVirtual : Bool) : Prop :=
  field.isBitfield = false ∧ field.isFlexibleArrayMember = false ∧
    (field.isVirtualBaseStorage = true → withVirtual = true)

theorem listed_iff (field : RecordFieldFact) (withVirtual : Bool) :
    (field.isBitfield || field.isFlexibleArrayMember ||
      (field.isVirtualBaseStorage && !withVirtual)) = false ↔ field.Listed withVirtual := by
  unfold RecordFieldFact.Listed
  cases field.isBitfield <;> cases field.isFlexibleArrayMember <;>
    cases field.isVirtualBaseStorage <;> cases withVirtual <;> simp

theorem classSubobject_record_iff {id owner : TypeId} {facts : RecordFacts} {base address : ℕ}
    {withVirtual : Bool} :
    ClassSubobject target withVirtual (.record owner (some facts)) base id address ↔
      (id = owner ∧ address = base) ∨
        (facts.isIncomplete = false ∧ ∃ field ∈ facts.fields, field.Listed withVirtual ∧
          ClassSubobject target (!field.isBaseSubobject) field.type (base + field.offset) id
            address) := by
  constructor
  · rintro (_ | _ | ⟨isComplete, member, ordinary, bounded, placedHere, inside⟩)
    · exact Or.inl ⟨rfl, rfl⟩
    · exact Or.inr ⟨isComplete, _, member, ⟨ordinary, bounded, placedHere⟩, inside⟩
  · rintro (⟨rfl, rfl⟩ | ⟨isComplete, _, member, ⟨ordinary, bounded, placedHere⟩, inside⟩)
    · exact .whole
    · exact .field isComplete member ordinary bounded placedHere inside

theorem not_classSubobject_builtin {kind : Cir.BuiltinTypeKind} {id : TypeId} {base address : ℕ}
    {withVirtual : Bool} : ¬ClassSubobject target withVirtual (.builtin kind) base id address := by
  intro impossible
  cases impossible

theorem appendFieldFootprints_cons (field : RecordFieldFact)
    (rest : List RecordFieldFact) (base : ℕ) (withVirtual : Bool) :
    appendFieldFootprints target (field :: rest) base withVirtual =
      (if field.isBitfield || field.isFlexibleArrayMember ||
          (field.isVirtualBaseStorage && !withVirtual) then []
        else appendRecordFootprint target field.type (sizeT (base + field.offset))
          (!field.isBaseSubobject)) ++
        appendFieldFootprints target rest base withVirtual := by
  cases field
  rfl

theorem appendRecordFootprint_record (id : TypeId) (facts : RecordFacts) (base : ℕ)
    (withVirtual : Bool) :
    appendRecordFootprint target (.record id (some facts)) base withVirtual =
      (id, base) :: if facts.isIncomplete then []
        else appendFieldFootprints target facts.fields base withVirtual := by
  cases facts
  rfl

theorem mem_appendFieldFootprints (fields : List RecordFieldFact) (base : ℕ)
    (withVirtual : Bool) (entry : FootprintEntry) :
    entry ∈ appendFieldFootprints target fields base withVirtual ↔
      ∃ field ∈ fields, field.Listed withVirtual ∧
        entry ∈ appendRecordFootprint target field.type (sizeT (base + field.offset))
          (!field.isBaseSubobject) := by
  induction fields with
  | nil => simp [appendFieldFootprints]
  | cons field rest induction =>
    rw [appendFieldFootprints_cons, mem_append, induction]
    constructor
    · rintro (here | ⟨other, member, found⟩)
      · split at here
        · simp at here
        · rename_i skipped
          exact ⟨field, mem_cons_self,
            (listed_iff field withVirtual).mp (by simpa using skipped), here⟩
      · exact ⟨other, mem_cons_of_mem _ member, found⟩
    · rintro ⟨other, member, listed, inside⟩
      rcases List.mem_cons.mp member with rfl | later
      · left
        rw [if_neg (by simpa using (listed_iff other withVirtual).mpr listed)]
        exact inside
      · exact Or.inr ⟨other, later, listed, inside⟩

theorem mem_footprint_array {element : LayoutType} {sizeKind : Aburi.Cir.ArraySizeKind}
    {count size : ℕ} (sized : typeSize target element = some size)
    (base : ℕ) (withVirtual : Bool) (entry : FootprintEntry) :
    entry ∈ appendRecordFootprint target (.array element sizeKind (some count)) (sizeT base)
        withVirtual ↔
      ∃ index < count, entry ∈ appendRecordFootprint target element
        (sizeT (base + index * size)) withVirtual := by
  have agrees : SizeAgrees target element := sizeAgrees element
  obtain ⟨inner, other, isInner, isOther, same⟩ := agrees.resolve_right
    (fun unsized => by simp [sized] at unsized)
  obtain rfl : size = other := by simpa [sized] using isOther
  have stride : ∀ index, sizeT (sizeT base + index * inner.sizeBytes) =
      sizeT (base + index * size) := by
    intro index
    rcases same with same | same
    · rw [same, sizeT_add_left]
    · rw [same, sizeT_add_left]
      simp [sizeT, Nat.add_mod, Nat.mul_mod]
  rw [appendRecordFootprint, isInner]
  simp only [mem_flatMap, mem_range, stride]

/-- The footprint lists exactly the class subobjects. -/
theorem mem_appendRecordFootprint_of_classSubobject {withVirtual : Bool}
    {type : LayoutType} {base : ℕ} {id : TypeId} {address : ℕ}
    (subobject : ClassSubobject target withVirtual type base id address) :
    (id, sizeT address) ∈ appendRecordFootprint target type (sizeT base) withVirtual := by
  induction subobject with
  | @whole _ _ facts _ =>
    cases facts with
    | none => exact mem_singleton_self _
    | some facts =>
      rw [appendRecordFootprint_record]
      exact mem_cons_self
  | element sized within _ induction =>
    exact (mem_footprint_array sized _ _ _).mpr ⟨_, within, induction⟩
  | field isComplete member ordinary bounded placedHere _ induction =>
    rw [appendRecordFootprint_record, isComplete]
    apply mem_cons_of_mem
    refine (mem_appendFieldFootprints _ _ _ _).mpr
      ⟨_, member, ⟨ordinary, bounded, placedHere⟩, ?_⟩
    rw [sizeT_add_left]
    exact induction

mutual

theorem classSubobject_of_mem : (type : LayoutType) → ∀ (base : ℕ) (withVirtual : Bool)
    (entry : FootprintEntry),
    entry ∈ appendRecordFootprint target type (sizeT base) withVirtual →
    ∃ address, ClassSubobject target withVirtual type base entry.1 address ∧
      entry.2 = sizeT address
  | .array element _ (some _) => by
      intro base withVirtual entry listed
      have inElement := classSubobject_of_mem element
      cases sized : typeSize target element with
      | none =>
        have agrees : SizeAgrees target element := sizeAgrees element
        have unsized : sizeAlignOfType target element = none := by
          rcases agrees with ⟨_, _, _, isSize, _⟩ | ⟨unsized, _⟩
          · simp [sized] at isSize
          · exact unsized
        simp [appendRecordFootprint, unsized] at listed
      | some size =>
        obtain ⟨index, within, found⟩ := (mem_footprint_array sized _ _ _).mp listed
        obtain ⟨address, inside, same⟩ := inElement _ _ _ found
        exact ⟨address, .element sized within inside, same⟩
  | .record id none => by
      intro base withVirtual entry listed
      simp only [appendRecordFootprint, mem_singleton] at listed
      subst listed
      exact ⟨base, .whole, rfl⟩
  | .record id (some { isIncomplete, fields, .. }) => by
      intro base withVirtual entry listed
      have inFields := classSubobject_of_mem_fields fields
      simp only [appendRecordFootprint, mem_cons] at listed
      rcases listed with rfl | listed
      · exact ⟨base, .whole, rfl⟩
      · cases isIncomplete with
        | true => simp at listed
        | false =>
          obtain ⟨field, member, ⟨ordinary, bounded, placedHere⟩, found⟩ :=
            (mem_appendFieldFootprints _ _ _ _).mp (by simpa using listed)
          rw [sizeT_add_left] at found
          obtain ⟨address, inside, same⟩ := inFields field member _ _ _ found
          exact ⟨address, .field rfl member ordinary bounded placedHere inside, same⟩
  | .array _ _ none | .builtin _ | .pointer | .reference | .memberPointer _ | .function
  | .enum _ | .vector _ _ _ | .complex _ | .bitInt _ | .other =>
    by intro _ _ _ listed; simp [appendRecordFootprint] at listed

theorem classSubobject_of_mem_fields : (fields : List RecordFieldFact) →
    ∀ field ∈ fields, ∀ (base : ℕ) (withVirtual : Bool) (entry : FootprintEntry),
      entry ∈ appendRecordFootprint target field.type (sizeT base) withVirtual →
      ∃ address, ClassSubobject target withVirtual field.type base entry.1 address ∧
        entry.2 = sizeT address
  | [] => by simp
  | { type, .. } :: rest => by
      intro field member
      have inFirst := classSubobject_of_mem type
      have inRest := classSubobject_of_mem_fields rest
      rcases List.mem_cons.mp member with rfl | later
      · exact inFirst
      · exact inRest field later

end

theorem mem_appendRecordFootprint_iff {withVirtual : Bool} {type : LayoutType} {base : ℕ}
    {entry : FootprintEntry} :
    entry ∈ appendRecordFootprint target type (sizeT base) withVirtual ↔
      ∃ address, ClassSubobject target withVirtual type base entry.1 address ∧
        entry.2 = sizeT address := by
  constructor
  · exact classSubobject_of_mem type base withVirtual entry
  · obtain ⟨id, value⟩ := entry
    rintro ⟨address, inside, rfl⟩
    exact mem_appendRecordFootprint_of_classSubobject inside

variable {context : LayoutContext} {occupied : List FootprintEntry} {field : RecordFieldFact}

/-- A position conflicts when a class subobject of the field would get an address
that is taken for its class, as far as `size_t` tells addresses apart. -/
theorem fieldConflicts_iff {candidate : ℕ} (counted : candidate < 2 ^ 64) :
    context.fieldConflicts occupied field candidate = true ↔
      ∃ id address, ClassSubobject context.target (!field.isBaseSubobject) field.type
        candidate id address ∧ (id, sizeT address) ∈ occupied := by
  have listed : ∀ entry, entry ∈ context.fieldFootprint field candidate ↔
      ∃ address, ClassSubobject context.target (!field.isBaseSubobject) field.type candidate
        entry.1 address ∧ entry.2 = sizeT address := by
    intro entry
    unfold LayoutContext.fieldFootprint
    conv_lhs => rw [← sizeT_of_lt counted]
    exact mem_appendRecordFootprint_iff
  unfold LayoutContext.fieldConflicts footprintConflicts
  simp only [any_eq_true, decide_eq_true_eq, exists_eq_right', listed]
  constructor
  · rintro ⟨⟨id, _⟩, ⟨address, inside, rfl⟩, taken⟩
    exact ⟨id, address, inside, taken⟩
  · rintro ⟨id, address, inside, taken⟩
    exact ⟨(id, sizeT address), ⟨address, inside, rfl⟩, taken⟩

/-- The way of a search. -/
def nextCandidate (fieldAlign candidate : ℕ) : ℕ := sizeT (candidate + fieldAlign)

theorem searchCandidate_none (conflicts : ℕ → Bool) (fieldAlign fuel candidate : ℕ) :
    searchCandidate conflicts fieldAlign none fuel candidate =
      firstFit (nextCandidate fieldAlign) conflicts fuel candidate := by
  induction fuel generalizing candidate with
  | zero => rfl
  | succ fuel induction =>
    simp only [searchCandidate, firstFit, induction]
    rfl

theorem iterate_nextCandidate {start : ℕ} (counted : start < 2 ^ 64) (fieldAlign steps : ℕ) :
    (nextCandidate fieldAlign)^[steps] start = sizeT (start + steps * fieldAlign) := by
  induction steps with
  | zero => simp [sizeT_of_lt counted]
  | succ steps induction =>
    rw [Function.iterate_succ_apply', induction, nextCandidate, sizeT_add_left, Nat.add_assoc,
      ← Nat.succ_mul]

/-- The search has no answer exactly when it would never end. -/
theorem searchCandidate_forever {conflicts : ℕ → Bool} {fieldAlign start : ℕ}
    (counted : start < 2 ^ 64)
    (ended : searchCandidate conflicts fieldAlign none (2 ^ 64) start = none) (steps : ℕ) :
    conflicts (sizeT (start + steps * fieldAlign)) = true := by
  rw [searchCandidate_none] at ended
  rw [← iterate_nextCandidate counted]
  apply Aburi.Lib.firstFit_none_forever _ ended _ (Nat.two_pow_pos 64)
  rw [iterate_nextCandidate counted]
  simpa [sizeT] using counted

section

variable {conflicts : ℕ → Bool} {fieldAlign fuel start offset : ℕ}

/-- Where no candidate before `offset` leaves `size_t`, the search ends there exactly
when it is the first free one. -/
theorem searchCandidate_eq_some_iff (positive : 0 < fieldAlign) (fueled : 2 ^ 64 ≤ fuel)
    (startMultiple : fieldAlign ∣ start) (multiple : fieldAlign ∣ offset)
    (from_ : start ≤ offset) (counted : offset < 2 ^ 64) :
    searchCandidate conflicts fieldAlign none fuel start = some offset ↔
      conflicts offset = false ∧
        ∀ other, fieldAlign ∣ other → start ≤ other → other < offset →
          conflicts other = true := by
  have startCounted : start < 2 ^ 64 := from_.trans_lt counted
  have straight : ∀ steps, start + steps * fieldAlign ≤ offset →
      (nextCandidate fieldAlign)^[steps] start = start + steps * fieldAlign := by
    intro steps within
    rw [iterate_nextCandidate startCounted, sizeT_of_lt (within.trans_lt counted)]
  have stepsTo : ∀ other, fieldAlign ∣ other → start ≤ other →
      ∃ steps, other = start + steps * fieldAlign := by
    intro other otherMultiple after
    obtain ⟨steps, isSteps⟩ := Nat.dvd_sub otherMultiple startMultiple
    exact ⟨steps, by rw [Nat.mul_comm, ← isSteps]; omega⟩
  obtain ⟨needed, isNeeded⟩ := stepsTo offset multiple from_
  have below : ∀ steps, steps < needed → start + steps * fieldAlign < offset := by
    intro steps fewer
    rw [isNeeded]
    exact Nat.add_lt_add_left (Nat.mul_lt_mul_of_pos_right fewer positive) _
  rw [searchCandidate_none, Aburi.Lib.firstFit_eq_some_iff]
  constructor
  · rintro ⟨steps, _, reaches, free, before⟩
    refine ⟨free, ?_⟩
    intro other otherMultiple after sooner
    obtain ⟨early, rfl⟩ := stepsTo other otherMultiple after
    have earlier : early < steps := by
      by_contra late
      have notEnough : start + steps * fieldAlign < offset :=
        (Nat.add_le_add_left (Nat.mul_le_mul_right _ (Nat.not_lt.mp late)) _).trans_lt sooner
      rw [straight steps notEnough.le] at reaches
      omega
    rw [← straight early sooner.le]
    exact before early earlier
  · rintro ⟨free, before⟩
    refine ⟨needed, ?_, ?_, free, ?_⟩
    · have atLeast : needed ≤ needed * fieldAlign := Nat.le_mul_of_pos_right _ positive
      omega
    · rw [straight needed (by omega), ← isNeeded]
    · intro early fewer
      have sooner := below early fewer
      rw [straight early sooner.le]
      exact before _ ((Nat.dvd_add_right startMultiple).mpr (Nat.dvd_mul_left _ _))
        (Nat.le_add_right _ _) sooner

/-- A free multiple ahead ends the search, there or before. -/
theorem exists_searchCandidate (positive : 0 < fieldAlign) (fueled : 2 ^ 64 ≤ fuel)
    (startMultiple : fieldAlign ∣ start) (multiple : fieldAlign ∣ offset)
    (from_ : start ≤ offset) (counted : offset < 2 ^ 64) (free : conflicts offset = false) :
    ∃ found, searchCandidate conflicts fieldAlign none fuel start = some found ∧
      fieldAlign ∣ found ∧ start ≤ found ∧ found ≤ offset := by
  have exists_ : ∃ other, fieldAlign ∣ other ∧ start ≤ other ∧ conflicts other = false :=
    ⟨offset, multiple, from_, free⟩
  classical
  obtain ⟨foundMultiple, after, foundFree⟩ := Nat.find_spec exists_
  have first : Nat.find exists_ ≤ offset := Nat.find_min' exists_ ⟨multiple, from_, free⟩
  refine ⟨Nat.find exists_, ?_, foundMultiple, after, first⟩
  apply (searchCandidate_eq_some_iff positive fueled startMultiple foundMultiple after
    (first.trans_lt counted)).mpr
  refine ⟨foundFree, ?_⟩
  intro other otherMultiple otherAfter sooner
  by_contra otherFree
  exact Nat.find_min exists_ sooner ⟨otherMultiple, otherAfter, by simpa using otherFree⟩

theorem searchCandidate_free {resume : Option ℕ} {found : ℕ}
    (ended : searchCandidate conflicts fieldAlign resume fuel start = some found) :
    conflicts found = false := by
  induction fuel generalizing resume start with
  | zero => simp [searchCandidate] at ended
  | succ fuel induction =>
    unfold searchCandidate at ended
    split at ended
    · split at ended
      · exact induction ended
      · exact induction ended
    · obtain rfl : start = found := by simpa using ended
      simpa using ‹¬conflicts start = true›

theorem searchCandidate_counted {resume : Option ℕ} {found : ℕ} (counted : start < 2 ^ 64)
    (resumeCounted : ∀ cursor ∈ resume, cursor < 2 ^ 64)
    (ended : searchCandidate conflicts fieldAlign resume fuel start = some found) :
    found < 2 ^ 64 := by
  induction fuel generalizing resume start with
  | zero => simp [searchCandidate] at ended
  | succ fuel induction =>
    unfold searchCandidate at ended
    split at ended
    · split at ended
      · exact induction (resumeCounted _ rfl) (by simp) ended
      · exact induction (sizeT_lt _) (by simp) ended
    · obtain rfl : start = found := by simpa using ended
      exact counted

end

/-- A search that ends, ends on an offset without a conflict. -/
theorem fieldCandidate_free {cursor fieldAlign offset : ℕ}
    (ended : context.fieldCandidate occupied cursor field fieldAlign = some offset) :
    context.fieldConflicts occupied field offset = false ∧ offset < 2 ^ 64 := by
  refine ⟨searchCandidate_free ended, searchCandidate_counted ?_ ?_ ended⟩
  · split
    · exact Nat.two_pow_pos 64
    · exact sizeT_lt _
  · intro other resumed
    split at resumed
    · obtain rfl : alignToSize cursor fieldAlign = other := by simpa using resumed
      exact sizeT_lt _
    · contradiction

theorem fieldCandidate_nonEmpty (nonEmpty : field.subobjectSize ≠ .zero)
    (cursor fieldAlign : ℕ) :
    context.fieldCandidate occupied cursor field fieldAlign =
      searchCandidate (context.fieldConflicts occupied field) fieldAlign none searchFuel
        (alignToSize cursor fieldAlign) := by
  simp only [LayoutContext.fieldCandidate, nonEmpty, false_and, if_false]

theorem fieldCandidate_empty (isEmpty : field.subobjectSize = .zero)
    (notVirtual : field.isVirtualBaseStorage = false) (cursor fieldAlign : ℕ) :
    context.fieldCandidate occupied cursor field fieldAlign =
      searchCandidate (context.fieldConflicts occupied field) fieldAlign none searchFuel 0 := by
  simp only [LayoutContext.fieldCandidate, isEmpty, notVirtual, Bool.false_eq_true,
    and_false, if_false, if_true]

theorem fieldCandidate_emptyVirtual (isEmpty : field.subobjectSize = .zero)
    (isVirtual : field.isVirtualBaseStorage = true) (cursor fieldAlign : ℕ) :
    context.fieldCandidate occupied cursor field fieldAlign =
      if context.fieldConflicts occupied field 0 then
        searchCandidate (context.fieldConflicts occupied field) fieldAlign none (2 ^ 64)
          (alignToSize cursor fieldAlign)
      else some 0 := by
  simp only [LayoutContext.fieldCandidate, isEmpty, isVirtual, and_self, if_true]
  rfl

end Aburi.Layout
