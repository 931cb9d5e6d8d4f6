import Aburi.Layout.PlatformLayout

/-!
# When the computed layout is the one of the platform

The loop over the fields keeps what the platform keeps: the end of the data, the
class subobjects already placed and the largest alignment.  It leaves the platform
in four places.  An empty member that clashes at the origin is tried at every
multiple of its alignment, also inside the data; a C record is searched for clashes
like a C++ one; an empty subobject counts for one byte, however large its class is;
and a packed record drops the alignment its fields ask for.
-/

namespace Aburi.Layout

open Aburi.Lib (alignTo)

/-- At this offset a class subobject of the field has the address of one of the same
class, as far as `size_t` tells addresses apart. -/
def SharesCounted (context : LayoutContext) (state : PlatformState)
    (field : RecordFieldFact) (offset : ℕ) : Prop :=
  ∃ id address other,
    ClassSubobject context.target (!field.isBaseSubobject) field.type offset id address ∧
      (id, other) ∈ state.occupied ∧ sizeT address = sizeT other

/-- The next field is placed at the offset of the platform. -/
def StepFollows (context : LayoutContext) (state : PlatformState)
    (field : RecordFieldFact) (offset : ℕ) : Prop :=
  ¬SharesCounted context state field offset ∧
    (IsEmptySubobject context field → field.isVirtualBaseStorage = false →
      Clashes context state field 0 →
        ∀ other, effectiveAlign context field ∣ other → 0 < other →
          other < alignTo state.dataEnd (effectiveAlign context field) →
            SharesCounted context state field other)

/-- The platform places the fields, and every step is followed. -/
inductive Followed (context : LayoutContext) :
    PlatformState → List RecordFieldFact → PlatformState → Prop where
  | nil {state} : Followed context state [] state
  | cons {state field rest offset final}
      (here : IsPlatformOffset context state field offset)
      (follows : StepFollows context state field offset)
      (others : Followed context (state.place context rest.isEmpty field offset) rest final) :
      Followed context state (field :: rest) final

/-- The inputs on which the computed layout is the one of the platform, in terms of
the layout of the platform alone. -/
def FollowsPlatform (context : LayoutContext) (fields : List RecordFieldFact) : Prop :=
  ∃ final, Followed context {} fields final ∧
    (context.isPacked = true → final.alignment ≤ max 1 context.requestedAlignment) ∧
    platformSize context final.markedEnd final.alignment =
      platformSize context final.fieldsEnd final.alignment ∧
    platformSize context final.fieldsEnd final.alignment * 8 < 2 ^ 64

variable {context : LayoutContext} {state : PlatformState} {field : RecordFieldFact}
  {offset : ℕ}

theorem Clashes.sharesCounted (clash : Clashes context state field offset) :
    SharesCounted context state field offset := by
  obtain ⟨_, id, address, inside, taken⟩ := clash
  exact ⟨id, address, address, inside, taken, rfl⟩

/-- The class subobjects as the loop and as the platform keep them. -/
def SameOccupied (occupied : List FootprintEntry) (platform : Set FootprintEntry) : Prop :=
  ∀ id value, (id, value) ∈ occupied ↔ ∃ address, (id, address) ∈ platform ∧ value = sizeT address

section

variable {occupied : List FootprintEntry} (same : SameOccupied occupied state.occupied)
include same

theorem fieldConflicts_tracks (counted : offset < 2 ^ 64) :
    context.fieldConflicts occupied field offset = true ↔
      SharesCounted context state field offset := by
  rw [fieldConflicts_iff counted]
  constructor
  · rintro ⟨id, address, inside, taken⟩
    obtain ⟨other, otherTaken, equal⟩ := (same id _).mp taken
    exact ⟨id, address, other, inside, otherTaken, equal⟩
  · rintro ⟨id, address, other, inside, otherTaken, equal⟩
    exact ⟨id, address, inside, (same id _).mpr ⟨other, otherTaken, equal⟩⟩

theorem fieldConflicts_free (counted : offset < 2 ^ 64) :
    context.fieldConflicts occupied field offset = false ↔
      ¬SharesCounted context state field offset := by
  rw [← fieldConflicts_tracks same counted, Bool.not_eq_true]

theorem SameOccupied.append (counted : offset < 2 ^ 64) :
    SameOccupied (occupied ++ context.fieldFootprint field offset)
      (state.occupied ∪ fieldSubobjects context field offset) := by
  have listed : ∀ entry, entry ∈ context.fieldFootprint field offset ↔
      ∃ address, (entry.1, address) ∈ fieldSubobjects context field offset ∧
        entry.2 = sizeT address := by
    intro entry
    unfold LayoutContext.fieldFootprint
    conv_lhs => rw [← sizeT_of_lt counted]
    exact mem_appendRecordFootprint_iff
  intro id value
  rw [List.mem_append, same, listed]
  constructor
  · rintro (⟨address, taken, rfl⟩ | ⟨address, inside, rfl⟩)
    · exact ⟨address, Or.inl taken, rfl⟩
    · exact ⟨address, Or.inr inside, rfl⟩
  · rintro ⟨address, taken | inside, rfl⟩
    · exact Or.inl ⟨address, taken, rfl⟩
    · exact Or.inr ⟨address, inside, rfl⟩

end

theorem alignToSize_of_le (positive : 0 < effectiveAlign context field)
    (multiple : effectiveAlign context field ∣ offset) (after : state.dataEnd ≤ offset)
    (counted : offset < 2 ^ 64) :
    alignToSize state.dataEnd (effectiveAlign context field) =
      alignTo state.dataEnd (effectiveAlign context field) :=
  sizeT_of_lt ((Aburi.Lib.alignTo_le positive multiple after).trans_lt counted)

/-- A position between the end of the data and the place of the platform clashes. -/
theorem IsFirstAfterData.clashes {other : ℕ}
    (isFirst : IsFirstAfterData context state field offset) (after : state.dataEnd ≤ other)
    (multiple : effectiveAlign context field ∣ other) (before : other < offset) :
    Clashes context state field other := by
  by_contra free
  exact absurd (isFirst.2 ⟨after, multiple, free⟩) (Nat.not_le.mpr before)

section

variable {occupied : List FootprintEntry} (same : SameOccupied occupied state.occupied)
  (counted : offset < 2 ^ 64)
include same counted

omit counted in
theorem fieldCandidate_origin (isEmpty : IsEmptySubobject context field) :
    context.fieldCandidate occupied state.dataEnd (context.classifySubobjectSize field)
        (effectiveAlign context field) = some 0 ↔
      ¬SharesCounted context state field 0 := by
  have positive := effectiveAlign_pos context field
  have isZero := (classifySubobjectSize_zero_iff context field).mpr isEmpty
  have free := @fieldConflicts_free context state field 0 occupied same (Nat.two_pow_pos 64)
  have conflicts : context.fieldConflicts occupied (context.classifySubobjectSize field) =
    context.fieldConflicts occupied field := rfl
  rw [← free]
  cases isVirtual : field.isVirtualBaseStorage with
  | false =>
    rw [fieldCandidate_empty isZero isVirtual, conflicts, searchCandidate_eq_some_iff positive
      (by unfold searchFuel; omega) (Nat.dvd_zero _) (Nat.dvd_zero _) le_rfl (Nat.two_pow_pos 64)]
    simp
  | true =>
    rw [fieldCandidate_emptyVirtual isZero isVirtual, conflicts]
    split
    · rename_i taken
      simp only [taken, Bool.true_eq_false, iff_false]
      intro ended
      have freeThere := searchCandidate_free ended
      rw [taken] at freeThere
      contradiction
    · rename_i notTaken
      simpa using notTaken

theorem fieldCandidate_afterData
    (notOrigin : ¬(IsEmptySubobject context field ∧ ¬Clashes context state field 0))
    (isFirst : IsFirstAfterData context state field offset) :
    context.fieldCandidate occupied state.dataEnd (context.classifySubobjectSize field)
        (effectiveAlign context field) = some offset ↔
      StepFollows context state field offset := by
  have positive := effectiveAlign_pos context field
  obtain ⟨after, multiple, _⟩ := isFirst.1
  have aligned := Aburi.Lib.dvd_alignTo positive state.dataEnd
  have start := Aburi.Lib.alignTo_le positive multiple after
  have filled := Aburi.Lib.le_alignTo state.dataEnd (effectiveAlign context field)
  have fueled : 2 ^ 64 ≤ searchFuel := by unfold searchFuel; omega
  have conflicts : context.fieldConflicts occupied (context.classifySubobjectSize field) =
    context.fieldConflicts occupied field := rfl
  have behind : ∀ other, effectiveAlign context field ∣ other →
      alignTo state.dataEnd (effectiveAlign context field) ≤ other → other < offset →
        context.fieldConflicts occupied field other = true := by
    intro other otherMultiple otherAfter before
    apply (fieldConflicts_tracks same (before.trans counted)).mpr
    exact (isFirst.clashes (filled.trans otherAfter) otherMultiple before).sharesCounted
  unfold StepFollows
  rw [← fieldConflicts_free same counted]
  by_cases isEmpty : IsEmptySubobject context field
  · have isZero := (classifySubobjectSize_zero_iff context field).mpr isEmpty
    have clash : Clashes context state field 0 := by
      by_contra free
      exact notOrigin ⟨isEmpty, free⟩
    have taken : context.fieldConflicts occupied field 0 = true :=
      (fieldConflicts_tracks same (Nat.two_pow_pos 64)).mpr clash.sharesCounted
    cases isVirtual : field.isVirtualBaseStorage with
    | false =>
      rw [fieldCandidate_empty isZero isVirtual, conflicts, searchCandidate_eq_some_iff positive
        fueled (Nat.dvd_zero _) multiple (Nat.zero_le _) counted]
      constructor
      · rintro ⟨free, before⟩
        refine ⟨free, ?_⟩
        intro _ _ _ other otherMultiple _ inData
        have sooner : other < offset := inData.trans_le start
        exact (fieldConflicts_tracks same (sooner.trans counted)).mp
          (before other otherMultiple (Nat.zero_le _) sooner)
      · rintro ⟨free, inside⟩
        refine ⟨free, ?_⟩
        intro other otherMultiple _ sooner
        rcases Nat.eq_zero_or_pos other with rfl | above
        · exact taken
        · rcases Nat.lt_or_ge other (alignTo state.dataEnd (effectiveAlign context field))
            with inData | otherAfter
          · exact (fieldConflicts_tracks same (sooner.trans counted)).mpr
              (inside isEmpty rfl clash other otherMultiple above inData)
          · exact behind other otherMultiple otherAfter sooner
    | true =>
      rw [fieldCandidate_emptyVirtual isZero isVirtual, conflicts, if_pos taken,
        alignToSize_of_le positive multiple after counted, searchCandidate_eq_some_iff positive
          le_rfl aligned multiple start counted]
      constructor
      · rintro ⟨free, _⟩
        exact ⟨free, by simp⟩
      · rintro ⟨free, _⟩
        exact ⟨free, behind⟩
  · have notZero : (context.classifySubobjectSize field).subobjectSize ≠ .zero :=
      fun isZero => isEmpty ((classifySubobjectSize_zero_iff context field).mp isZero)
    rw [fieldCandidate_nonEmpty notZero, conflicts, alignToSize_of_le positive multiple after
      counted, searchCandidate_eq_some_iff positive fueled aligned multiple start counted]
    constructor
    · rintro ⟨free, _⟩
      exact ⟨free, fun isEmptyHere => absurd isEmptyHere isEmpty⟩
    · rintro ⟨free, _⟩
      exact ⟨free, behind⟩

theorem fieldCandidate_follows (placed : IsPlatformOffset context state field offset) :
    context.fieldCandidate occupied state.dataEnd (context.classifySubobjectSize field)
        (effectiveAlign context field) = some offset ↔
      StepFollows context state field offset := by
  rcases placed with ⟨isEmpty, free, rfl⟩ | ⟨notOrigin, isFirst⟩
  · rw [fieldCandidate_origin same isEmpty]
    constructor
    · intro notShared
      exact ⟨notShared, fun _ _ clash => absurd clash free⟩
    · intro follows
      exact follows.1
  · exact fieldCandidate_afterData same counted notOrigin isFirst

end

/-- What the loop and the platform both keep. -/
structure Tracks (state : LayoutState) (platform : PlatformState) : Prop where
  currentByte : state.currentByte = platform.dataEnd
  currentBit : state.currentBit ≤ platform.dataEnd * 8
  extent : max platform.dataEnd state.objectExtent = platform.markedEnd
  maxAlign : state.maxAlign = platform.alignment
  occupied : SameOccupied state.occupied platform.occupied
  noUnit : state.currentMsvcStorageBits = 0

theorem Tracks.start : Tracks {} {} := by
  refine ⟨rfl, le_rfl, rfl, rfl, ?_, rfl⟩
  intro id value
  simp

theorem place_empty (isEmpty : IsEmptySubobject context field) (isLast : Bool) (offset : ℕ) :
    state.place context isLast field offset =
      { dataEnd := state.dataEnd
        fieldsEnd := max state.fieldsEnd (offset + fieldSize context isLast field)
        markedEnd := max state.markedEnd (offset + 1)
        alignment := max state.alignment (effectiveAlign context field)
        occupied := state.occupied ∪ fieldSubobjects context field offset } := by
  simp only [PlatformState.place, isEmpty, if_true]

theorem place_data (nonEmpty : ¬IsEmptySubobject context field) (isLast : Bool) (offset : ℕ) :
    state.place context isLast field offset =
      { dataEnd := max state.dataEnd (offset + fieldSize context isLast field)
        fieldsEnd := max state.fieldsEnd (offset + fieldSize context isLast field)
        markedEnd := max state.markedEnd (offset + fieldSize context isLast field)
        alignment := max state.alignment (effectiveAlign context field)
        occupied := state.occupied ∪ fieldSubobjects context field offset } := by
  simp only [PlatformState.place, nonEmpty, if_false]

theorem sizeT_le (value : ℕ) : sizeT value ≤ value := Nat.mod_le _ _

theorem Tracks.bytesUsed {state : LayoutState} {platform : PlatformState}
    (tracks : Tracks state platform) : state.bytesUsed = platform.dataEnd := by
  have bits := tracks.currentBit
  have counted := sizeT_le (state.currentBit + 7)
  unfold LayoutState.bytesUsed
  rw [tracks.currentByte]
  omega

variable {loop : LayoutState}

theorem leaveMsvcUnit_of_noUnit (noUnit : loop.currentMsvcStorageBits = 0) :
    context.leaveMsvcUnit loop = loop := by
  unfold LayoutContext.leaveMsvcUnit
  rw [if_neg (by simp [noUnit])]

/-- A turn of the loop for a field that is no bit-field. -/
def settle (context : LayoutContext) (isLast : Bool) (loop : LayoutState)
    (field : RecordFieldFact) (offset : ℕ) : LayoutState × RecordFieldFact :=
  context.settleField (context.noteField isLast loop field) (context.classifySubobjectSize field)
    (if isLast && field.isFlexibleArrayMember then 0 else (context.fieldSizeAlign field).1) offset

theorem layoutField_noBits (isLast : Bool) (noBits : field.isBitfield = false)
    (noUnit : loop.currentMsvcStorageBits = 0) :
    context.layoutField isLast loop (context.classifySubobjectSize field) =
      (context.fieldCandidate loop.occupied loop.bytesUsed
        (context.classifySubobjectSize field) (effectiveAlign context field)).map
        (settle context isLast loop field) := by
  have noBitsHere : (context.classifySubobjectSize field).isBitfield = false := noBits
  have stays : context.leaveMsvcUnit
      (context.noteField isLast loop (context.classifySubobjectSize field)) =
        context.noteField isLast loop (context.classifySubobjectSize field) :=
    leaveMsvcUnit_of_noUnit noUnit
  unfold LayoutContext.layoutField
  dsimp only
  rw [if_neg (by simp [noBitsHere]), LayoutContext.placeField, stays]
  rfl

theorem settle_offset (isLast : Bool) : (settle context isLast loop field offset).2.offset = offset := by
  unfold settle LayoutContext.settleField
  dsimp only
  split <;> rfl

/-- One turn of the loop: the states stay together as long as nothing leaves
`size_t`. -/
theorem Tracks.settle (tracks : Tracks loop state) (isLast : Bool)
    (after : ¬IsEmptySubobject context field → state.dataEnd ≤ offset)
    (fits : (state.place context isLast field offset).fieldsEnd < 2 ^ 61) :
    Tracks (settle context isLast loop field offset).1
      (state.place context isLast field offset) := by
  have within : offset + fieldSize context isLast field < 2 ^ 61 :=
    (le_max_right _ _).trans_lt fits
  have size := @fieldSize_of_lt context field isLast (by omega)
  have counted : offset < 2 ^ 64 := by omega
  have occupied := @SameOccupied.append context state field offset _ tracks.occupied counted
  unfold Layout.settle LayoutContext.settleField
  rw [size]
  dsimp only
  by_cases isEmpty : IsEmptySubobject context field
  · rw [if_pos ((classifySubobjectSize_zero_iff context field).mpr isEmpty), place_empty isEmpty]
    refine ⟨tracks.currentByte, tracks.currentBit, ?_, ?_, occupied, tracks.noUnit⟩
    · simp only [LayoutContext.noteField, ← tracks.extent]
      rw [sizeT_of_lt (by omega)]
      omega
    · simp only [LayoutContext.noteField, ← tracks.maxAlign]
      rfl
  · rw [if_neg (mt (classifySubobjectSize_zero_iff context field).mp isEmpty), place_data isEmpty]
    have begins := after isEmpty
    have byte : sizeT (offset + fieldSize context isLast field) =
        offset + fieldSize context isLast field := sizeT_of_lt (by omega)
    have bits := sizeT_le ((offset + fieldSize context isLast field) * 8)
    rw [byte]
    refine ⟨?_, ?_, ?_, ?_, occupied, tracks.noUnit⟩
    · dsimp only
      omega
    · dsimp only
      omega
    · simp only [LayoutContext.noteField, ← tracks.extent]
      omega
    · simp only [LayoutContext.noteField, ← tracks.maxAlign]
      rfl

theorem IsPlatformOffset.after (placed : IsPlatformOffset context state field offset)
    (nonEmpty : ¬IsEmptySubobject context field) : state.dataEnd ≤ offset := by
  rcases placed with ⟨isEmpty, _⟩ | ⟨_, isFirst⟩
  · contradiction
  · exact isFirst.1.1

theorem PlacedByPlatform.fieldsEnd_le {final : PlatformState} {fields : List RecordFieldFact}
    {offsets : List ℕ} (placed : PlacedByPlatform context state fields offsets final) :
    state.fieldsEnd ≤ final.fieldsEnd := by
  induction placed with
  | nil => exact le_rfl
  | cons _ _ induction => exact (le_max_left _ _).trans induction

theorem Followed.placed {final : PlatformState} {fields : List RecordFieldFact}
    (followed : Followed context state fields final) :
    ∃ offsets, PlacedByPlatform context state fields offsets final := by
  induction followed with
  | nil => exact ⟨[], .nil⟩
  | @cons _ _ _ offset _ here _ _ induction =>
    obtain ⟨offsets, placed⟩ := induction
    exact ⟨offset :: offsets, .cons here placed⟩

/-- One turn of the loop that places the field where the platform places it. -/
theorem layoutField_follows (tracks : Tracks loop state) (isLast : Bool)
    (noBits : field.isBitfield = false) (here : IsPlatformOffset context state field offset)
    (counted : offset < 2 ^ 64) :
    context.layoutField isLast loop (context.classifySubobjectSize field) =
        some (settle context isLast loop field offset) ↔
      StepFollows context state field offset := by
  rw [← fieldCandidate_follows tracks.occupied counted here, layoutField_noBits isLast noBits
    tracks.noUnit, tracks.bytesUsed]
  constructor
  · intro turned
    obtain ⟨found, ended, same⟩ := Option.map_eq_some_iff.mp turned
    have offsets := congrArg (fun placed : LayoutState × RecordFieldFact => placed.2.offset) same
    simp only [settle_offset] at offsets
    rw [ended, offsets]
  · intro ended
    rw [ended]
    rfl

theorem layoutFields_cons (field : RecordFieldFact) (rest : List RecordFieldFact) :
    context.layoutFields loop ((field :: rest).map context.classifySubobjectSize) =
      match context.layoutField rest.isEmpty loop (context.classifySubobjectSize field) with
      | none => none
      | some (next, placed) =>
        (context.layoutFields next (rest.map context.classifySubobjectSize)).map
          fun (final, others) => (final, placed :: others) := by
  have same : (rest.map context.classifySubobjectSize).isEmpty = rest.isEmpty := List.isEmpty_map
  rw [← same]
  rfl

section

variable {fields : List RecordFieldFact} (noBits : ∀ field ∈ fields, field.isBitfield = false)
include noBits

/-- When the computed offsets are those of the platform, every step has followed it. -/
theorem layoutFields_followed {final : PlatformState} {run : LayoutState × List RecordFieldFact}
    (tracks : Tracks loop state)
    (ran : context.layoutFields loop (fields.map context.classifySubobjectSize) = some run)
    (placed : PlacedByPlatform context state fields (run.2.map (·.offset)) final)
    (fits : final.fieldsEnd < 2 ^ 61) :
    Followed context state fields final ∧ Tracks run.1 final := by
  induction fields generalizing loop state run with
  | nil =>
    obtain rfl : (loop, []) = run := by simpa [LayoutContext.layoutFields] using ran
    cases placed
    exact ⟨.nil, tracks⟩
  | cons field rest induction =>
    rw [layoutFields_cons] at ran
    split at ran
    · contradiction
    · rename_i next first turned
      obtain ⟨others, othersRan, rfl⟩ := Option.map_eq_some_iff.mp ran
      cases placed with
      | cons here restPlaced =>
        have noBitsHere := noBits field List.mem_cons_self
        have below := restPlaced.fieldsEnd_le.trans_lt fits
        have within : first.offset + fieldSize context rest.isEmpty field < 2 ^ 61 :=
          (le_max_right _ _).trans_lt below
        obtain ⟨found, ended, settled⟩ := Option.map_eq_some_iff.mp
          ((layoutField_noBits rest.isEmpty noBitsHere tracks.noUnit).symm.trans turned)
        have sameOffset : first.offset = found := by
          rw [← show (settle context rest.isEmpty loop field found).2 = first by rw [settled]]
          exact settle_offset _
        subst sameOffset
        rw [← settled] at turned
        have counted : first.offset < 2 ^ 64 := by omega
        have follows := (layoutField_follows tracks rest.isEmpty noBitsHere here counted).mp turned
        have nextTracks := tracks.settle rest.isEmpty here.after below
        rw [settled] at nextTracks
        obtain ⟨restFollowed, finalTracks⟩ := induction
          (fun other member => noBits other (List.mem_cons_of_mem _ member)) nextTracks othersRan
          restPlaced
        exact ⟨.cons here follows restFollowed, finalTracks⟩

/-- When every step follows the platform, the computed offsets are its offsets. -/
theorem Followed.layoutFields {final : PlatformState}
    (followed : Followed context state fields final) (tracks : Tracks loop state)
    (fits : final.fieldsEnd < 2 ^ 61) :
    ∃ run, context.layoutFields loop (fields.map context.classifySubobjectSize) = some run ∧
      PlacedByPlatform context state fields (run.2.map (·.offset)) final ∧ Tracks run.1 final := by
  induction followed generalizing loop with
  | nil => exact ⟨(loop, []), rfl, .nil, tracks⟩
  | @cons state field rest offset final here follows others induction =>
    obtain ⟨_, restPlaced⟩ := others.placed
    have below := restPlaced.fieldsEnd_le.trans_lt fits
    have within : offset + fieldSize context rest.isEmpty field < 2 ^ 61 :=
      (le_max_right _ _).trans_lt below
    have turned := (layoutField_follows tracks rest.isEmpty
      (noBits field List.mem_cons_self) here (by omega)).mpr follows
    obtain ⟨run, ran, placed, finalTracks⟩ := induction
      (fun other member => noBits other (List.mem_cons_of_mem _ member))
      (tracks.settle rest.isEmpty here.after below) fits
    refine ⟨(run.1, (settle context rest.isEmpty loop field offset).2 :: run.2), ?_, ?_,
      finalTracks⟩
    · rw [layoutFields_cons, turned]
      simp only [ran]
      rfl
    · rw [List.map_cons, settle_offset]
      exact .cons here placed

end

section

variable {final : PlatformState} {fields : List RecordFieldFact} {offsets : List ℕ}
  (placed : PlacedByPlatform context state fields offsets final)
include placed

theorem PlacedByPlatform.alignment_le : state.alignment ≤ final.alignment := by
  induction placed with
  | nil => exact le_rfl
  | cons _ _ induction => exact (le_max_left _ _).trans induction

theorem PlacedByPlatform.markedEnd_le (close : state.markedEnd ≤ state.fieldsEnd + 1) :
    final.markedEnd ≤ final.fieldsEnd + 1 := by
  induction placed with
  | nil => exact close
  | cons _ _ induction =>
    apply induction
    unfold PlatformState.place
    dsimp only
    split <;> omega

end

variable {alignment : ℕ}

theorem finalAlign_eq_iff (positive : 1 ≤ alignment) :
    max 1 (context.finalAlign alignment) = platformAlignment context alignment ↔
      (context.isPacked = true → alignment ≤ max 1 context.requestedAlignment) := by
  unfold LayoutContext.finalAlign platformAlignment
  cases context.isPacked
  · simp only [Bool.false_eq_true, if_false, false_implies, iff_true]
    split <;> omega
  · simp only [if_true, true_implies]
    split <;> omega

theorem finalAlign_pos (positive : 1 ≤ alignment) :
    1 ≤ context.finalAlign alignment := by
  unfold LayoutContext.finalAlign
  dsimp only
  cases context.isPacked
  · simp only [Bool.false_eq_true, if_false]
    split <;> omega
  · simp only [if_true]
    split <;> omega

theorem alignTo_one (positive : 1 ≤ alignment) :
    alignTo 1 alignment = alignment := by
  apply Nat.le_antisymm
  · exact Aburi.Lib.alignTo_le positive (Nat.dvd_refl _) positive
  · apply Nat.le_of_dvd
    · exact Nat.lt_of_lt_of_le Nat.one_pos (Aburi.Lib.le_alignTo 1 alignment)
    · exact Aburi.Lib.dvd_alignTo positive 1

theorem Tracks.finalBytes (tracks : Tracks loop state) :
    context.finalBytes loop = state.markedEnd := by
  unfold LayoutContext.finalBytes
  simp only [tracks.noUnit, Nat.lt_irrefl, and_false, if_false, tracks.bytesUsed]
  exact tracks.extent

theorem platformAlignment_pos : 0 < platformAlignment context alignment := by
  unfold platformAlignment
  omega

theorem le_platformSize (fieldsEnd : ℕ) : fieldsEnd ≤ platformSize context fieldsEnd alignment := by
  unfold platformSize
  refine le_trans ?_ (Aburi.Lib.le_alignTo _ _)
  split <;> omega

theorem dvd_platformSize (fieldsEnd : ℕ) :
    platformAlignment context alignment ∣ platformSize context fieldsEnd alignment :=
  Aburi.Lib.dvd_alignTo platformAlignment_pos _

theorem finalSizeBits_lt (context : LayoutContext) (byte align : ℕ) :
    context.finalSizeBits byte align < 2 ^ 64 := by
  have wrapped := sizeT_lt (alignToSize (max 1 byte) align * 8)
  unfold LayoutContext.finalSizeBits
  split <;> omega

theorem finalSizeBits_of_pos {byte : ℕ} (counted : context.isCxxMode = true ∨ 0 < byte) (align : ℕ) :
    context.finalSizeBits byte align = max 8 (alignTo (max 1 byte) align * 8 % 2 ^ 64) := by
  unfold LayoutContext.finalSizeBits alignToSize
  rw [if_neg]
  · unfold sizeT
    rw [Nat.mod_mul_mod]
  · rintro ⟨notCxx, nothing⟩
    rcases counted with isCxx | positive
    · exact notCxx isCxx
    · omega

theorem platformSize_of_pos {byte : ℕ} (counted : context.isCxxMode = true ∨ 0 < byte) :
    platformSize context byte alignment =
      alignTo (max 1 byte) (platformAlignment context alignment) := by
  unfold platformSize
  split
  · rfl
  · rename_i notCxx
    have one : max 1 byte = byte := by
      rcases counted with isCxx | positive
      · exact absurd isCxx notCxx
      · omega
    rw [one]

/-- The computed size is the one of the platform exactly when a byte for each empty
member makes no difference and the size fits into `size_t`. -/
theorem finalSizeBits_eq_iff {byte fieldsEnd : ℕ} (close : byte ≤ fieldsEnd + 1) :
    context.finalSizeBits byte (platformAlignment context alignment) =
        platformSize context fieldsEnd alignment * 8 ↔
      platformSize context byte alignment = platformSize context fieldsEnd alignment ∧
        platformSize context fieldsEnd alignment * 8 < 2 ^ 64 := by
  have filled := @le_platformSize context alignment fieldsEnd
  have positive := @platformAlignment_pos context alignment
  by_cases counted : context.isCxxMode = true ∨ 0 < byte
  · rw [finalSizeBits_of_pos counted, platformSize_of_pos counted]
    have multiple := @dvd_platformSize context alignment fieldsEnd
    have unit : 0 < platformSize context fieldsEnd alignment →
        platformAlignment context alignment ≤ platformSize context fieldsEnd alignment := fun some_ =>
      Nat.le_of_dvd some_ multiple
    have rounded := Aburi.Lib.alignTo_le positive (Nat.dvd_add multiple (Nat.dvd_refl _))
      (by omega : max 1 byte ≤ platformSize context fieldsEnd alignment +
        platformAlignment context alignment)
    have atLeast := Aburi.Lib.le_alignTo (max 1 byte) (platformAlignment context alignment)
    generalize alignTo (max 1 byte) (platformAlignment context alignment) = size at *
    generalize platformSize context fieldsEnd alignment = needed at *
    omega
  · obtain ⟨isC, nothing⟩ := not_or.mp counted
    obtain rfl : byte = 0 := by omega
    unfold LayoutContext.finalSizeBits
    rw [if_pos ⟨isC, rfl⟩]
    have none_ : platformSize context 0 alignment = 0 := by
      unfold platformSize
      rw [if_neg isC, Aburi.Lib.alignTo_zero]
    rw [none_]
    omega

theorem noFields_isPlatform_iff (kind : RecordKind) :
    (∃ info, context.computeRecordLayout kind [] = some info ∧
      IsPlatformLayout context [] info) ↔ FollowsPlatform context [] := by
  have one : platformAlignment context 1 = max 1 context.requestedAlignment := by
    unfold platformAlignment
    omega
  have size : platformSize context 0 1 =
      if context.isCxxMode then max 1 context.requestedAlignment else 0 := by
    unfold platformSize
    rw [one]
    split
    · exact alignTo_one (le_max_left _ _)
    · exact Aburi.Lib.alignTo_zero _
  constructor
  · rintro ⟨info, computed, final, placed, _, sameSize⟩
    obtain rfl := Option.some.inj computed
    cases placed
    refine ⟨{}, .nil, fun _ => le_max_left _ _, rfl, ?_⟩
    change (if context.isCxxMode then sizeT (max 1 context.requestedAlignment * 8) else 0) =
      platformSize context 0 1 * 8 at sameSize
    change platformSize context 0 1 * 8 < 2 ^ 64
    rw [← sameSize]
    split
    · exact sizeT_lt _
    · exact Nat.two_pow_pos 64
  · rintro ⟨final, followed, _, _, fits⟩
    cases followed
    change platformSize context 0 1 * 8 < 2 ^ 64 at fits
    refine ⟨_, rfl, {}, .nil, one.symm, ?_⟩
    change (if context.isCxxMode then sizeT (max 1 context.requestedAlignment * 8) else 0) =
      platformSize context 0 1 * 8
    rw [size] at fits ⊢
    split
    · rename_i isCxx
      rw [if_pos isCxx] at fits
      exact sizeT_of_lt fits
    · rfl

theorem computeRecordLayout_cons {kind : RecordKind} {fields : List RecordFieldFact}
    (notUnion : kind ≠ .union) (nonEmpty : fields ≠ []) :
    context.computeRecordLayout kind fields =
      context.layoutSequence (fields.map context.classifySubobjectSize) := by
  unfold LayoutContext.computeRecordLayout
  rw [if_neg (by simpa using nonEmpty), if_neg notUnion]

theorem Tracks.sequence_info {fields placed : List RecordFieldFact} (tracks : Tracks loop state)
    (ran : context.layoutFields {} (fields.map context.classifySubobjectSize) = some (loop, placed)) :
    ∃ info, context.layoutSequence (fields.map context.classifySubobjectSize) = some info ∧
      info.fields = placed ∧
      info.alignment = max 1 (context.finalAlign state.alignment) ∧
      info.sizeBits = context.finalSizeBits state.markedEnd (context.finalAlign state.alignment) := by
  unfold LayoutContext.layoutSequence
  rw [ran]
  refine ⟨_, rfl, rfl, ?_, ?_⟩
  · rw [← tracks.maxAlign]
  · rw [← tracks.maxAlign, ← tracks.finalBytes]

def hostTarget : TargetInfo where
  pointerWidth := 64
  longWidth := 64
  longDoubleFormat := .x87Extended
  longDoubleStorageBytes := 16
  longDoubleAlignBytes := 16

/-- `struct __attribute__((packed)) { char c; int x __attribute__((aligned(4))); }` -/
def packedAligned : List RecordFieldFact :=
  [{ type := .builtin .char }, { type := .builtin .int, forcedAlignment := 4 }]

/-- `struct { char c; int x __attribute__((aligned(0x2000000000000000))); }` -/
def farInt : List RecordFieldFact :=
  [{ type := .builtin .char }, { type := .builtin .int, forcedAlignment := 2 ^ 61 }]

def hostC : LayoutContext where
  target := hostTarget
  isCxxMode := false

/-- `struct E {};` -/
def emptyType : LayoutType :=
  .record { index := 1 } (some {
    kind := .struct
    isIncomplete := false
    isEmpty := .true
    fields := []
    sizeBits := 8
    alignment := 1 })

/-- `struct P { int x; int y; };` -/
def pairType : LayoutType :=
  .record { index := 2 } (some {
    kind := .struct
    isIncomplete := false
    isEmpty := .false
    fields := [{ type := .builtin .int }, { type := .builtin .int, offset := 4 }]
    sizeBits := 64
    alignment := 4 })

/-- `struct D : E { char c; [[no_unique_address]] E e; P pairs[2]; };` -/
def derived : List RecordFieldFact :=
  [{ type := emptyType, isBaseSubobject := true },
    { type := .builtin .char },
    { type := emptyType, isNoUniqueAddress := true },
    { type := .array pairType .constant (some 2) }]

/-- `#pragma pack(2)` -/
def packedCxx : LayoutContext where
  target := hostTarget
  isCxxMode := true
  packAlignment := 2

theorem classSubobject_emptyType {withVirtual : Bool} {id : Cir.TypeId} {base address : ℕ} :
    ClassSubobject hostTarget withVirtual emptyType base id address ↔
      id = { index := 1 } ∧ address = base := by
  simp [emptyType, classSubobject_record_iff]

theorem classSubobject_pairType {withVirtual : Bool} {id : Cir.TypeId} {base address : ℕ} :
    ClassSubobject hostTarget withVirtual pairType base id address ↔
      id = { index := 2 } ∧ address = base := by
  simp [pairType, classSubobject_record_iff, not_classSubobject_builtin]

theorem classSubobject_pairs {withVirtual : Bool} {id : Cir.TypeId} {base address : ℕ}
    (inside : ClassSubobject hostTarget withVirtual (.array pairType .constant (some 2)) base id
      address) : id = { index := 2 } := by
  cases inside with
  | element _ _ inElement => exact (classSubobject_pairType.mp inElement).1

theorem fieldSubobjects_emptyType {field : RecordFieldFact} (typed : field.type = emptyType)
    (offset : ℕ) : fieldSubobjects packedCxx field offset = {({ index := 1 }, offset)} := by
  ext ⟨id, address⟩
  unfold fieldSubobjects
  rw [typed]
  simpa [packedCxx] using classSubobject_emptyType

theorem fieldSubobjects_builtin {field : RecordFieldFact} {kind : Cir.BuiltinTypeKind}
    (typed : field.type = .builtin kind) (offset : ℕ) :
    fieldSubobjects packedCxx field offset = ∅ := by
  ext ⟨id, address⟩
  unfold fieldSubobjects
  rw [typed]
  simpa using not_classSubobject_builtin

theorem not_emptySubobject (type : LayoutType) :
    ¬IsEmptySubobject packedCxx { type := type } := by
  simp [IsEmptySubobject]

theorem pairs_followed :
    ∃ final, Followed packedCxx ⟨1, 2, 2, 1, {({ index := 1 }, 0)} ∪ {({ index := 1 }, 1)}⟩
        [{ type := .array pairType .constant (some 2) }] final ∧
      final.alignment = 2 ∧ final.fieldsEnd = 18 ∧ final.markedEnd = 18 := by
  have afterPairs : PlatformState.place packedCxx
      ⟨1, 2, 2, 1, {({ index := 1 }, 0)} ∪ {({ index := 1 }, 1)}⟩ true
      { type := .array pairType .constant (some 2) } 2 =
        ⟨18, 18, 18, 2, {({ index := 1 }, 0)} ∪ {({ index := 1 }, 1)} ∪
          fieldSubobjects packedCxx { type := .array pairType .constant (some 2) } 2⟩ := by
    rw [place_data (not_emptySubobject _)]
    rfl
  have apart : ∀ offset, ¬SharesCounted packedCxx
      ⟨1, 2, 2, 1, {({ index := 1 }, 0)} ∪ {({ index := 1 }, 1)}⟩
      { type := .array pairType .constant (some 2) } offset := by
    rintro offset ⟨id, address, other, inside, taken, _⟩
    obtain rfl := classSubobject_pairs inside
    simp at taken
  refine ⟨PlatformState.place packedCxx _ true _ 2,
    .cons ?_ ⟨apart 2, fun isEmpty => absurd isEmpty (not_emptySubobject _)⟩ .nil,
    by rw [afterPairs], by rw [afterPairs], by rw [afterPairs]⟩
  refine Or.inr ⟨fun isEmpty => not_emptySubobject _ isEmpty.1, ⟨by decide, by decide, ?_⟩, ?_⟩
  · intro clashes
    exact apart 2 clashes.sharesCounted
  · rintro candidate ⟨after, multiple, _⟩
    obtain ⟨steps, rfl⟩ := multiple
    change 1 ≤ 2 * steps at after
    change 2 ≤ 2 * steps
    omega

end Aburi.Layout
