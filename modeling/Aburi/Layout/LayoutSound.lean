import Aburi.Layout.PlatformAgreement
import Aburi.Layout.UniqueAddresses

/-!
# Soundness of the record layout

The search for a place ends, the fields are aligned and lie one after the other
inside the record, as long as `size_t` can count the places and the size.  In C++ two
subobjects of one class have different addresses unless they lie in two elements of
one array.
-/

namespace Aburi.Layout

open List

open Aburi.Cir (TypeId)
open Aburi.Lib (alignTo)

/-- The byte ranges of the non-empty fields, in declaration order: offset and size. -/
def dataRanges (context : LayoutContext) :
    List RecordFieldFact → List RecordFieldFact → List (ℕ × ℕ)
  | field :: fields, placed :: others =>
    if placed.subobjectSize = .zero then dataRanges context fields others
    else (placed.offset, fieldSize context fields.isEmpty field) :: dataRanges context fields others
  | _, _ => []

/-- The record as a type, once it has been laid out. -/
def completeRecord (id : TypeId) (kind : RecordKind) (isEmpty : ClassPropertyState)
    (info : RecordLayoutInfo) : LayoutType :=
  .record id (some {
    kind := kind
    isIncomplete := false
    isEmpty := isEmpty
    fields := info.fields
    sizeBits := info.sizeBits
    alignment := info.alignment })

/-- What a layout has to provide. -/
structure SoundLayout (context : LayoutContext) (kind : RecordKind) (id : TypeId)
    (isEmpty : ClassPropertyState) (fields : List RecordFieldFact)
    (info : RecordLayoutInfo) : Prop where
  aligned : Forall₂
    (fun field placed => effectiveAlign context field ∣ placed.offset) fields info.fields
  ordered : kind ≠ .union →
    (dataRanges context fields info.fields).Pairwise fun range later =>
      range.1 + range.2 ≤ later.1
  inside : kind ≠ .union → ∀ range ∈ dataRanges context fields info.fields,
    range.1 + range.2 ≤ info.sizeBits / 8
  unique : context.isCxxMode = true → ∀ base first second,
    DistinctSubobjects context.target true (completeRecord id kind isEmpty info) base
      first second → first ≠ second

/-- The searches end, and the layout they end with is sound. -/
def LaysOutSoundly (context : LayoutContext) (kind : RecordKind) (id : TypeId)
    (isEmpty : ClassPropertyState) (fields : List RecordFieldFact) : Prop :=
  ∃ info, context.computeRecordLayout kind fields = some info ∧
    SoundLayout context kind id isEmpty fields info

/-- Before the turn of a field, there is a free multiple of its alignment that
`size_t` can count: for a non-empty field behind the data, with the end of the field. -/
def HasRoom (context : LayoutContext) (loop : LayoutState) (isLast : Bool)
    (field : RecordFieldFact) : Prop :=
  ∃ offset, effectiveAlign context field ∣ offset ∧
    context.fieldConflicts loop.occupied field offset = false ∧
    (IsEmptySubobject context field → offset < 2 ^ 64 ∧
      (field.isVirtualBaseStorage = true → offset = 0 ∨ loop.bytesUsed ≤ offset)) ∧
    (¬IsEmptySubobject context field →
      loop.bytesUsed ≤ offset ∧ offset + fieldSize context isLast field < 2 ^ 64)

/-- There is room before each turn, and the bits of the rounded size can be counted. -/
def RoomFor (context : LayoutContext) : LayoutState → List RecordFieldFact → Prop
  | loop, [] =>
    alignTo (max 1 (context.finalBytes loop)) (context.finalAlign loop.maxAlign) * 8 < 2 ^ 64
  | loop, field :: rest =>
    HasRoom context loop rest.isEmpty field ∧
      ∀ out, context.layoutField rest.isEmpty loop (context.classifySubobjectSize field) = some out →
        RoomFor context out.1 rest

/-- There is room before each turn but those of the empty virtual bases. -/
def RoomForData (context : LayoutContext) : LayoutState → List RecordFieldFact → Prop
  | _, [] => True
  | loop, field :: rest =>
    (¬(IsEmptySubobject context field ∧ field.isVirtualBaseStorage = true) →
      HasRoom context loop rest.isEmpty field) ∧
      ∀ out, context.layoutField rest.isEmpty loop (context.classifySubobjectSize field) = some out →
        RoomForData context out.1 rest

/-- No storage unit of bit-fields is open, and the last byte of the data is the last
one counted. -/
structure CountsBytes (loop : LayoutState) : Prop where
  bits : loop.currentBit ≤ loop.currentByte * 8
  noUnit : loop.currentMsvcStorageBits = 0

theorem CountsBytes.bytesUsed {loop : LayoutState} (counts : CountsBytes loop) :
    loop.bytesUsed = loop.currentByte := by
  have bits := counts.bits
  have counted := sizeT_le (loop.currentBit + 7)
  unfold LayoutState.bytesUsed
  omega

variable {context : LayoutContext} {loop : LayoutState} {field : RecordFieldFact} {isLast : Bool}

theorem settle_zero_iff {offset : ℕ} :
    (settle context isLast loop field offset).2.subobjectSize = .zero ↔
      IsEmptySubobject context field := by
  rw [← classifySubobjectSize_zero_iff]
  unfold settle LayoutContext.settleField
  dsimp only
  split <;> rfl

theorem CountsBytes.settle (counts : CountsBytes loop) {offset : ℕ} :
    CountsBytes (settle context isLast loop field offset).1 := by
  unfold Layout.settle LayoutContext.settleField
  dsimp only
  split
  · exact ⟨counts.bits, counts.noUnit⟩
  · exact ⟨sizeT_le _, counts.noUnit⟩

theorem settle_currentByte_empty (isEmpty : IsEmptySubobject context field) {offset : ℕ} :
    (settle context isLast loop field offset).1.currentByte = loop.currentByte := by
  unfold settle LayoutContext.settleField
  dsimp only
  rw [if_pos ((classifySubobjectSize_zero_iff context field).mpr isEmpty)]
  rfl

theorem settle_currentByte (nonEmpty : ¬IsEmptySubobject context field) {offset : ℕ}
    (fits : offset + fieldSize context isLast field < 2 ^ 64) :
    (settle context isLast loop field offset).1.currentByte =
      offset + fieldSize context isLast field := by
  have size := @fieldSize_of_lt context field isLast (by omega)
  unfold settle LayoutContext.settleField
  rw [size]
  dsimp only
  rw [if_neg (mt (classifySubobjectSize_zero_iff context field).mp nonEmpty)]
  exact sizeT_of_lt fits

/-- A turn for which there is room ends, on a multiple of the alignment and, for a
non-empty field, behind the data. -/
theorem HasRoom.layoutField (room : HasRoom context loop isLast field)
    (counts : CountsBytes loop) (noBits : field.isBitfield = false) :
    ∃ offset, context.layoutField isLast loop (context.classifySubobjectSize field) =
        some (settle context isLast loop field offset) ∧
      effectiveAlign context field ∣ offset ∧
      (¬IsEmptySubobject context field → loop.currentByte ≤ offset ∧
        offset + fieldSize context isLast field < 2 ^ 64) := by
  obtain ⟨place, multiple, free, whenEmpty, whenData⟩ := room
  have positive := effectiveAlign_pos context field
  have aligned := Aburi.Lib.dvd_alignTo positive loop.bytesUsed
  have fueled : 2 ^ 64 ≤ searchFuel := by unfold searchFuel; omega
  have conflicts : context.fieldConflicts loop.occupied (context.classifySubobjectSize field) =
    context.fieldConflicts loop.occupied field := rfl
  have behind : loop.bytesUsed ≤ place → place < 2 ^ 64 →
      alignToSize loop.bytesUsed (effectiveAlign context field) =
          alignTo loop.bytesUsed (effectiveAlign context field) ∧
        alignTo loop.bytesUsed (effectiveAlign context field) ≤ place := by
    intro after counted
    have start := Aburi.Lib.alignTo_le positive multiple after
    exact ⟨sizeT_of_lt (start.trans_lt counted), start⟩
  rw [layoutField_noBits isLast noBits counts.noUnit]
  by_cases isEmpty : IsEmptySubobject context field
  · have isZero := (classifySubobjectSize_zero_iff context field).mpr isEmpty
    obtain ⟨counted, whenVirtual⟩ := whenEmpty isEmpty
    suffices ends : ∃ offset, context.fieldCandidate loop.occupied loop.bytesUsed
        (context.classifySubobjectSize field) (effectiveAlign context field) = some offset ∧
        effectiveAlign context field ∣ offset by
      obtain ⟨offset, ended, offsetMultiple⟩ := ends
      refine ⟨offset, by rw [ended]; rfl, offsetMultiple, ?_⟩
      intro nonEmpty
      contradiction
    cases isVirtual : field.isVirtualBaseStorage with
    | false =>
      rw [fieldCandidate_empty isZero isVirtual, conflicts]
      obtain ⟨found, ended, foundMultiple, _⟩ := exists_searchCandidate positive fueled
        (Nat.dvd_zero _) multiple (Nat.zero_le _) counted free
      exact ⟨found, ended, foundMultiple⟩
    | true =>
      rw [fieldCandidate_emptyVirtual isZero isVirtual, conflicts]
      split
      · rename_i taken
        rcases whenVirtual isVirtual with rfl | after
        · rw [free] at taken
          contradiction
        · obtain ⟨exact_, start⟩ := behind after counted
          rw [exact_]
          obtain ⟨found, ended, foundMultiple, _⟩ := exists_searchCandidate positive le_rfl
            aligned multiple start counted free
          exact ⟨found, ended, foundMultiple⟩
      · exact ⟨0, rfl, Nat.dvd_zero _⟩
  · obtain ⟨after, fits⟩ := whenData isEmpty
    have counted : place < 2 ^ 64 := by omega
    obtain ⟨exact_, start⟩ := behind after counted
    have notZero : (context.classifySubobjectSize field).subobjectSize ≠ .zero :=
      fun isZero => isEmpty ((classifySubobjectSize_zero_iff context field).mp isZero)
    rw [fieldCandidate_nonEmpty notZero, conflicts, exact_]
    obtain ⟨found, ended, foundMultiple, begins, before⟩ := exists_searchCandidate positive fueled
      aligned multiple start counted free
    refine ⟨found, by rw [ended]; rfl, foundMultiple, ?_⟩
    intro _
    have filled := Aburi.Lib.le_alignTo loop.bytesUsed (effectiveAlign context field)
    rw [counts.bytesUsed] at filled begins
    omega

/-- The data of the fields lies one after the other between two ends. -/
structure DataBetween (context : LayoutContext) (fields placed : List RecordFieldFact)
    (low high : ℕ) : Prop where
  aligned : Forall₂ (fun field placed => effectiveAlign context field ∣ placed.offset) fields placed
  ordered : (dataRanges context fields placed).Pairwise fun range later => range.1 + range.2 ≤ later.1
  between : ∀ range ∈ dataRanges context fields placed,
    low ≤ range.1 ∧ range.1 + range.2 ≤ high
  grows : low ≤ high

theorem DataBetween.cons_empty {fields others : List RecordFieldFact} {low high : ℕ}
    (rest : DataBetween context fields others low high) {placed : RecordFieldFact}
    (isZero : placed.subobjectSize = .zero)
    (multiple : effectiveAlign context field ∣ placed.offset) :
    DataBetween context (field :: fields) (placed :: others) low high := by
  refine ⟨.cons multiple rest.aligned, ?_, ?_, rest.grows⟩
  · rw [dataRanges, if_pos isZero]
    exact rest.ordered
  · rw [dataRanges, if_pos isZero]
    exact rest.between

theorem DataBetween.cons {fields others : List RecordFieldFact} {low high : ℕ}
    {placed : RecordFieldFact}
    (rest : DataBetween context fields others
      (placed.offset + fieldSize context fields.isEmpty field) high)
    (notZero : placed.subobjectSize ≠ .zero) (begins : low ≤ placed.offset)
    (multiple : effectiveAlign context field ∣ placed.offset) :
    DataBetween context (field :: fields) (placed :: others) low high := by
  have grows := rest.grows
  refine ⟨.cons multiple rest.aligned, ?_, ?_, by omega⟩
  · rw [dataRanges, if_neg notZero]
    apply List.Pairwise.cons _ rest.ordered
    intro later member
    exact (rest.between later member).1
  · rw [dataRanges, if_neg notZero]
    intro range member
    rcases List.mem_cons.mp member with rfl | later
    · exact ⟨begins, grows⟩
    · have inside := rest.between range later
      omega

section

variable {fields : List RecordFieldFact} (noBits : ∀ field ∈ fields, field.isBitfield = false)
include noBits

/-- Where there is room the loop ends, with the fields one after the other. -/
theorem RoomFor.layoutFields (room : RoomFor context loop fields) (counts : CountsBytes loop) :
    ∃ run, context.layoutFields loop (fields.map context.classifySubobjectSize) = some run ∧
      DataBetween context fields run.2 loop.currentByte run.1.currentByte ∧
      CountsBytes run.1 ∧ RoomFor context run.1 [] := by
  induction fields generalizing loop with
  | nil => exact ⟨(loop, []), rfl, ⟨.nil, .nil, by simp [dataRanges], le_rfl⟩, counts, room⟩
  | cons field rest induction =>
    obtain ⟨here, later⟩ := room
    obtain ⟨offset, turned, multiple, behind⟩ := here.layoutField counts (noBits field mem_cons_self)
    obtain ⟨run, ran, data, finalCounts, finalRoom⟩ := induction
      (fun other member => noBits other (mem_cons_of_mem _ member)) (later _ turned) counts.settle
    refine ⟨(run.1, (settle context rest.isEmpty loop field offset).2 :: run.2), ?_, ?_,
      finalCounts, finalRoom⟩
    · rw [layoutFields_cons, turned]
      simp only [ran]
      rfl
    · have atOffset : (settle context rest.isEmpty loop field offset).2.offset = offset :=
        settle_offset _
      rw [← atOffset] at multiple
      by_cases isEmpty : IsEmptySubobject context field
      · rw [settle_currentByte_empty isEmpty] at data
        exact data.cons_empty (settle_zero_iff.mpr isEmpty) multiple
      · obtain ⟨begins, fits⟩ := behind isEmpty
        rw [settle_currentByte isEmpty fits, ← atOffset] at data
        rw [← atOffset] at begins
        exact data.cons (mt settle_zero_iff.mp isEmpty) begins multiple

/-- A run that ends with the fields one after the other, below a bound that `size_t`
can count, had room for the data. -/
theorem roomForData {run : LayoutState × List RecordFieldFact} {high : ℕ} (counts : CountsBytes loop)
    (ran : context.layoutFields loop (fields.map context.classifySubobjectSize) = some run)
    (data : DataBetween context fields run.2 loop.currentByte high) (counted : high < 2 ^ 64) :
    RoomForData context loop fields := by
  induction fields generalizing loop run with
  | nil => trivial
  | cons field rest induction =>
    rw [layoutFields_cons] at ran
    split at ran
    · contradiction
    · rename_i next placed turned
      obtain ⟨others, othersRan, rfl⟩ := Option.map_eq_some_iff.mp ran
      obtain ⟨offset, ended, settled⟩ := Option.map_eq_some_iff.mp
        ((layoutField_noBits rest.isEmpty (noBits field mem_cons_self) counts.noUnit).symm.trans turned)
      obtain ⟨free, offsetCounted⟩ := fieldCandidate_free ended
      have nextCounts : CountsBytes next := by
        rw [← show (settle context rest.isEmpty loop field offset).1 = next by rw [settled]]
        exact counts.settle
      have atOffset : placed.offset = offset := by
        rw [← show (settle context rest.isEmpty loop field offset).2 = placed by rw [settled]]
        exact settle_offset _
      have isZero : placed.subobjectSize = .zero ↔ IsEmptySubobject context field := by
        rw [← show (settle context rest.isEmpty loop field offset).2 = placed by rw [settled]]
        exact settle_zero_iff
      obtain ⟨multiple, restAligned⟩ := forall₂_cons.mp data.aligned
      rw [atOffset] at multiple
      have ordered := data.ordered
      have between := data.between
      by_cases isEmpty : IsEmptySubobject context field
      · rw [dataRanges, if_pos (isZero.mpr isEmpty)] at ordered between
        constructor
        · intro notVirtual
          refine ⟨offset, multiple, free, ?_, fun nonEmpty => absurd isEmpty nonEmpty⟩
          intro _
          exact ⟨offsetCounted, fun isVirtual => absurd ⟨isEmpty, isVirtual⟩ notVirtual⟩
        · intro out again
          obtain rfl := Option.some.inj (turned.symm.trans again)
          have stays : next.currentByte = loop.currentByte := by
            rw [← show (settle context rest.isEmpty loop field offset).1 = next by rw [settled]]
            exact settle_currentByte_empty isEmpty
          exact induction (fun other member => noBits other (mem_cons_of_mem _ member)) nextCounts
            othersRan ⟨restAligned, ordered, stays ▸ between, stays ▸ data.grows⟩
      · rw [dataRanges, if_neg (mt isZero.mp isEmpty)] at ordered between
        have here := between _ mem_cons_self
        rw [atOffset] at here
        have fits : offset + fieldSize context rest.isEmpty field < 2 ^ 64 := by
          dsimp only at here
          omega
        constructor
        · intro _
          refine ⟨offset, multiple, free, fun isEmptyHere => absurd isEmptyHere isEmpty, ?_⟩
          intro _
          rw [counts.bytesUsed]
          exact ⟨here.1, fits⟩
        · intro out again
          obtain rfl := Option.some.inj (turned.symm.trans again)
          have moves : next.currentByte = offset + fieldSize context rest.isEmpty field := by
            rw [← show (settle context rest.isEmpty loop field offset).1 = next by rw [settled]]
            exact settle_currentByte isEmpty fits
          obtain ⟨restAfter, restOrdered⟩ := List.pairwise_cons.mp ordered
          apply induction (fun other member => noBits other (mem_cons_of_mem _ member)) nextCounts
            othersRan
          refine ⟨restAligned, restOrdered, ?_, ?_⟩
          · intro range member
            rw [moves, ← atOffset]
            exact ⟨restAfter range member, (between range (mem_cons_of_mem _ member)).2⟩
          · rw [moves]
            exact here.2

end

theorem layoutUnionFields_aligned (fields : List RecordFieldFact)
    (union : LayoutContext.UnionState) :
    Forall₂ (fun field placed => effectiveAlign context field ∣ placed.offset) fields
      (context.layoutUnionFields union (fields.map context.classifySubobjectSize)).2 := by
  induction fields generalizing union with
  | nil => exact .nil
  | cons field rest induction =>
    have atOrigin := (@layoutUnionField_keeps context
      (rest.map context.classifySubobjectSize).isEmpty union
      (context.classifySubobjectSize field)).2
    have multiple : effectiveAlign context field ∣ (context.layoutUnionField
        (rest.map context.classifySubobjectSize).isEmpty union
        (context.classifySubobjectSize field)).2.offset := by
      rw [atOrigin]
      exact Nat.dvd_zero _
    exact .cons multiple (induction _)

/-- The size has room for every byte the loop has counted. -/
theorem RoomFor.finalBytes_le (room : RoomFor context loop []) :
    context.finalBytes loop ≤
      context.finalSizeBits (context.finalBytes loop) (context.finalAlign loop.maxAlign) / 8 := by
  have counted : alignTo (max 1 (context.finalBytes loop))
      (context.finalAlign loop.maxAlign) * 8 < 2 ^ 64 := room
  have rounded := Aburi.Lib.le_alignTo (max 1 (context.finalBytes loop))
    (context.finalAlign loop.maxAlign)
  have bytesCounted : alignTo (max 1 (context.finalBytes loop))
      (context.finalAlign loop.maxAlign) < 2 ^ 64 := by omega
  unfold LayoutContext.finalSizeBits alignToSize
  rw [sizeT_of_lt bytesCounted, sizeT_of_lt counted]
  split <;> omega

theorem CountsBytes.le_finalBytes (counts : CountsBytes loop) :
    loop.currentByte ≤ context.finalBytes loop := by
  unfold LayoutContext.finalBytes
  simp only [counts.noUnit, Nat.lt_irrefl, and_false, if_false, counts.bytesUsed]
  exact le_max_left _ _

variable {fields : List RecordFieldFact} {kind : RecordKind}

theorem exists_ordered (noBits : ∀ field ∈ fields, field.isBitfield = false)
    (room : kind ≠ .union → fields ≠ [] → RoomFor context {} fields) :
    ∃ info, context.computeRecordLayout kind fields = some info ∧
      Forall₂ (fun field placed => effectiveAlign context field ∣ placed.offset) fields
        info.fields ∧
      (kind ≠ .union → (dataRanges context fields info.fields).Pairwise
        fun range later => range.1 + range.2 ≤ later.1) ∧
      (kind ≠ .union → ∀ range ∈ dataRanges context fields info.fields,
        range.1 + range.2 ≤ info.sizeBits / 8) := by
  by_cases isNil : fields = []
  · subst isNil
    exact ⟨_, rfl, .nil, fun _ => .nil, fun _ => by simp [dataRanges]⟩
  by_cases isUnion : kind = .union
  · refine ⟨context.layoutUnion (fields.map context.classifySubobjectSize), ?_,
      layoutUnionFields_aligned fields _, ?_, ?_⟩
    · unfold LayoutContext.computeRecordLayout
      rw [if_neg (by simpa using isNil), if_pos isUnion]
    · intro notUnion
      contradiction
    · intro notUnion
      contradiction
  · obtain ⟨run, ran, data, counts, finalRoom⟩ :=
      (room isUnion isNil).layoutFields noBits ⟨le_rfl, rfl⟩
    rw [computeRecordLayout_cons isUnion isNil]
    unfold LayoutContext.layoutSequence
    rw [ran]
    refine ⟨_, rfl, data.aligned, fun _ => data.ordered, ?_⟩
    · intro _ range member
      have counted := @CountsBytes.le_finalBytes context run.1 counts
      exact (data.between range member).2.trans (counted.trans finalRoom.finalBytes_le)

theorem exists_placed_of_mem {placed : List RecordFieldFact}
    (keeps : Forall₂ KeepsField fields placed) {field : RecordFieldFact}
    (member : field ∈ fields) : ∃ other ∈ placed, KeepsField field other := by
  induction keeps with
  | nil => contradiction
  | cons kept _ induction =>
    rcases List.mem_cons.mp member with rfl | later
    · exact ⟨_, mem_cons_self, kept⟩
    · obtain ⟨other, otherMember, otherKept⟩ := induction later
      exact ⟨other, mem_cons_of_mem _ otherMember, otherKept⟩

/-- No array among the types of the fields repeats a class subobject at its address. -/
def NoArrayClash (context : LayoutContext) (fields : List RecordFieldFact) : Prop :=
  context.isCxxMode = true → ∀ field ∈ fields, field.Listed true →
    ¬ArrayClash context.target (!field.isBaseSubobject) field.type

theorem LaysOutSoundly.noArrayClash {id : TypeId} {isEmpty : ClassPropertyState}
    (laysOut : LaysOutSoundly context kind id isEmpty fields) : NoArrayClash context fields := by
  obtain ⟨info, computed, sound⟩ := laysOut
  intro isCxx field member listed clash
  obtain ⟨placed, placedMember, kept⟩ :=
    exists_placed_of_mem (computeRecordLayout_keeps computed) member
  rw [← kept.isBase, ← kept.type] at clash
  obtain ⟨entry, pair⟩ := clash.pair (0 + placed.offset)
  exact sound.unique isCxx 0 entry entry
    (.inField rfl placedMember ((kept.listed true).mpr listed) pair) rfl

def hostCxx : LayoutContext where
  target := hostTarget
  isCxxMode := true

/-- A class of the host with the given bases and no members. -/
def emptyClass (index : UInt32) (bases : List LayoutType) : LayoutType :=
  ((hostCxx.computeRecordLayout .struct
    (bases.map fun base => { type := base, isBaseSubobject := true })).map
      (completeRecord { index := index } .struct .true)).getD .other

/-- `struct E {}; struct A : E {}; struct B : E {}; struct C : A, B {}; struct D : C {};` -/
def doubledEmpty : LayoutType :=
  emptyClass 5 [emptyClass 4 [emptyClass 2 [emptyClass 1 []], emptyClass 3 [emptyClass 1 []]]]

/-- `struct S { D items[2]; };` -/
def doubledArray : List RecordFieldFact :=
  [{ type := .array doubledEmpty .constant (some 2) }]

theorem laidOut_emptyType : LaidOut hostTarget emptyType := by
  refine .computed packedCxx [] rfl rfl rfl ?_ ?_
  · intro field member
    exact absurd member List.not_mem_nil
  · intro field member
    exact absurd member List.not_mem_nil

theorem laidOut_pairType : LaidOut hostTarget pairType := by
  have inputs : ∀ field ∈ [({ type := .builtin .int } : RecordFieldFact), { type := .builtin .int }],
      field.type = .builtin .int := by simp
  refine .computed hostCxx [{ type := .builtin .int }, { type := .builtin .int }] rfl rfl rfl ?_ ?_
  · intro field member
    rw [inputs field member]
    exact .scalar (by simp) (by simp)
  · intro field member withVirtual base address inside
    rw [inputs field member] at inside
    exact not_classSubobject_builtin inside

theorem derived_roomFor : RoomFor packedCxx {} derived := by
  have notEmpty : ∀ type, ¬IsEmptySubobject packedCxx { type := type } := by
    simp [IsEmptySubobject]
  have base : IsEmptySubobject packedCxx { type := emptyType, isBaseSubobject := true } :=
    ⟨rfl, Or.inl rfl, rfl, rfl, _, _, rfl, rfl⟩
  have member : IsEmptySubobject packedCxx { type := emptyType, isNoUniqueAddress := true } :=
    ⟨rfl, Or.inr rfl, rfl, rfl, _, _, rfl, rfl⟩
  refine ⟨⟨0, by decide, rfl, fun _ => ⟨by decide, fun _ => Or.inl rfl⟩,
    fun nonEmpty => absurd base nonEmpty⟩, ?_⟩
  intro afterBase ran
  obtain rfl := Option.some.inj ran
  refine ⟨⟨0, by decide, rfl, fun isEmpty => absurd isEmpty (notEmpty _),
    fun _ => by decide +kernel⟩, ?_⟩
  intro afterChar ran
  obtain rfl := Option.some.inj ran
  refine ⟨⟨1, by decide, rfl, fun _ => ⟨by decide, fun isVirtual => absurd isVirtual (by decide)⟩,
    fun nonEmpty => absurd member nonEmpty⟩, ?_⟩
  intro afterMember ran
  obtain rfl := Option.some.inj ran
  refine ⟨⟨2, by decide, rfl, fun isEmpty => absurd isEmpty (notEmpty _),
    fun _ => by decide +kernel⟩, ?_⟩
  intro afterPairs ran
  obtain rfl := Option.some.inj ran
  unfold RoomFor
  decide +kernel

end Aburi.Layout
