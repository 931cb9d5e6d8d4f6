import Aburi.Assembler.Layout
import Mathlib.Logic.Function.Basic

/-!
# Positions along a run

A position is the section as it stood when the position was taken.  The ledger
keeps the position of every symbol and location counter beside the unit, and
the invariant says that raw offsets and field counts of the unit denote them.
-/

namespace Aburi.Asm

open Aburi.Lib List Nat Bool

/-- What one statement does to the unit. -/
inductive Action where
  | symbol (name : String)
  | here
  | localRef (number : ℕ) (backward : Bool)
  | label (name : String)
  | localLabel (number : ℕ)
  | assign (name : String) (value : ExprValue)
  | equiv (name : String) (value : ExprValue)
  | switchSection (segname sectname : String) (flags : BitVec 32) (zerofill : Bool)
  | zerofillSymbol (segname sectname name : String) (size alignLog2 : ℕ)
  | align (alignLog2 : ℕ) (fill : UInt8) (fillGiven : Bool) (maxBytes : Option ℕ)
  | leb (isSigned : Bool) (value : ExprValue)
  | bytes (data : List UInt8)
  | fixup (data : List UInt8) (fieldOffset : ℕ) (kind : FixupKind) (value : ExprValue)
  | dataValue (kind : FixupKind) (value : ExprValue)
  | branch (nearBytes : List UInt8) (relOffset : ℕ) (shortOpcode : UInt8) (target : SymId)
      (addend : Word64)
  | space (size : ℕ) (fill : UInt8)
  | org (target : Word64) (fill : UInt8)

def Action.perform (options : AsmOptions) (action : Action) (assembler : Assembler) :
    Option Assembler :=
  match action with
  | .symbol name => some (assembler.intern name).2
  | .here => some assembler.exprHere.2
  | .localRef number backward => assembler.exprLocalRef number backward
  | .label name => assembler.defineLabel name
  | .localLabel number => assembler.defineLocalLabel number
  | .assign name value => assembler.assign name value
  | .equiv name value => assembler.equiv name value
  | .switchSection segname sectname flags zerofill =>
    some (assembler.switchSection segname sectname flags zerofill)
  | .zerofillSymbol segname sectname name size alignLog2 =>
    Assembler.zerofillSymbol options assembler segname sectname name size alignLog2
  | .align alignLog2 fill fillGiven maxBytes =>
    Assembler.alignCurrent options assembler alignLog2 fill fillGiven maxBytes
  | .leb isSigned value => assembler.appendLeb isSigned value
  | .bytes data => assembler.appendBytes data
  | .fixup data fieldOffset kind value => assembler.appendFixup data fieldOffset kind value
  | .dataValue kind value => assembler.appendDataValue kind value
  | .branch nearBytes relOffset shortOpcode target addend =>
    assembler.appendBranch nearBytes relOffset shortOpcode target addend
  | .space size fill => assembler.appendSpace size fill
  | .org target fill => assembler.org target fill

/-- A place in a section: the section as it stands there. -/
structure Point where
  sectionIndex : ℕ
  part : AsmSection
  deriving DecidableEq

/-- What a symbol stands for. -/
inductive Place where
  | undefined
  | point (point : Point) (addend : Word64)
  | number (constant : Word64)
  | difference (constant : Word64) (pos : Point) (posAddend : Word64) (neg : Point)
      (negAddend : Word64)
  deriving DecidableEq

structure Ledger where
  places : SymId → Place := fun _ => .undefined
  counters : List (Point × Word64) := []

def Assembler.point (assembler : Assembler) : Point := ⟨assembler.currentSection, assembler.cur⟩

namespace Ledger

def place (ledger : Ledger) (id : SymId) (place : Place) : Ledger :=
  { ledger with places := Function.update ledger.places id place }

/-- What an assigned expression stands for. -/
def valueOf (ledger : Ledger) (value : ExprValue) : Place :=
  match value.negSym, value.posSym with
  | none, none => .number value.constant
  | none, some target =>
    match ledger.places target with
    | .point point addend => .point point (addend + value.constant)
    | _ => .undefined
  | some neg, some pos =>
    match ledger.places pos, ledger.places neg with
    | .point pos posAddend, .point neg negAddend =>
      .difference value.constant pos posAddend neg negAddend
    | _, _ => .undefined
  | some _, none => .undefined

/-- The entries that a statement makes. -/
def record (options : AsmOptions) (before after : Assembler) (action : Action)
    (ledger : Ledger) : Ledger :=
  match action with
  | .here => ledger.place before.symbols.length (.point before.point 0)
  | .label name => ledger.place (before.intern name).1 (.point before.point 0)
  | .localLabel number =>
    (before.symbols.length :: (before.localLabel number).pendingForward).foldl
      (fun ledger id => ledger.place id (.point before.point 0)) ledger
  | .assign name value | .equiv name value =>
    ledger.place (before.intern name).1 (ledger.valueOf value)
  | .zerofillSymbol segname sectname name _ alignLog2 =>
    match Assembler.enterZerofill options before segname sectname alignLog2 with
    | some entered => ledger.place (entered.intern name).1 (.point entered.point 0)
    | none => ledger
  | .org target _ => { ledger with counters := ledger.counters ++ [(after.point, target)] }
  | _ => ledger

end Ledger

/-- Statement after statement. -/
def runActions (options : AsmOptions) :
    List Action → Assembler → Ledger → Option (Assembler × Ledger)
  | [], assembler, ledger => some (assembler, ledger)
  | action :: actions, assembler, ledger =>
    (action.perform options assembler).bind fun after =>
      runActions options actions after (ledger.record options assembler after action)

/-- An assigned expression whose symbols have no field between them and what
they are measured from. -/
def Assembler.settlesValue (assembler : Assembler) (value : ExprValue) : Bool :=
  match value.negSym, value.posSym with
  | none, some target => (assembler.sym target).deferredSeq == 0
  | some neg, some pos => (assembler.sym pos).deferredSeq == (assembler.sym neg).deferredSeq
  | _, _ => true

def Assembler.hasRoom (assembler : Assembler) (size : ℕ) : Bool :=
  !assembler.cur.zerofill || decide (size < 2 ^ 64)

/-- A statement that takes no position behind a variable-size field other than
by a label, and whose section size stays a 64-bit number. -/
def Action.meets (action : Action) (assembler : Assembler) : Bool :=
  match action with
  | .here => assembler.cur.deferred.isEmpty
  | .assign name value | .equiv name value => (assembler.intern name).2.settlesValue value
  | .align alignLog2 _ _ _ => assembler.hasRoom (alignUp assembler.cur.size alignLog2)
  | .space size _ => assembler.hasRoom (assembler.cur.size + size)
  | .zerofillSymbol segname sectname _ size alignLog2 =>
    let (index, found) := assembler.findOrAddSection segname sectname 0 true
    decide (alignUp (found.sections.getD index default).size alignLog2 + size < 2 ^ 64)
  | .org _ _ => assembler.cur.deferred.isEmpty
  | _ => true

/-- A run whose statements all meet the condition. -/
def meetsAll (options : AsmOptions) : List Action → Assembler → Bool
  | [], _ => true
  | action :: actions, assembler =>
    action.meets assembler &&
      match action.perform options assembler with
      | some after => meetsAll options actions after
      | none => true

/-- Offsets in order between two bounds. -/
def Between (first last : ℕ) : List ℕ → Prop
  | [] => first ≤ last
  | offset :: offsets => first ≤ offset ∧ Between offset last offsets

theorem Between.le {first last : ℕ} {offsets : List ℕ} (between : Between first last offsets) :
    first ≤ last := by
  induction offsets generalizing first with
  | nil => exact between
  | cons offset offsets induction => exact between.1.trans (induction between.2)

theorem Between.append {first middle last : ℕ} {offsets more : List ℕ}
    (between : Between first middle offsets) (further : Between middle last more) :
    Between first last (offsets ++ more) := by
  induction offsets generalizing first with
  | nil =>
    cases more with
    | nil => exact Nat.le_trans between further
    | cons offset more => exact ⟨Nat.le_trans between further.1, further.2⟩
  | cons offset offsets induction => exact ⟨between.1, induction between.2⟩

abbrev offsetsOf (fields : List DeferredField) : List ℕ := fields.map DeferredField.rawOffset

/-- A section whose fields stand in order inside its bytes. -/
structure PartOk (part : AsmSection) : Prop where
  empty : part.zerofill = true → part.bytes = [] ∧ part.deferred = []
  ordered : Between 0 part.bytes.length (offsetsOf part.deferred)

/-- A section with more behind it. -/
structure Extends (part later : AsmSection) : Prop where
  kind : later.zerofill = part.zerofill
  room : part.zerofillSize ≤ later.zerofillSize
  more : ∃ bytes fields, later.bytes = part.bytes ++ bytes ∧ later.deferred = part.deferred ++ fields ∧
    Between part.bytes.length later.bytes.length (offsetsOf fields) ∧
    (part.zerofill = true → bytes = [] ∧ fields = [])

theorem Extends.refl (part : AsmSection) : Extends part part :=
  ⟨rfl, Nat.le_refl _, [], [], (append_nil _).symm, (append_nil _).symm,
    Nat.le_refl _, fun _ => ⟨rfl, rfl⟩⟩

theorem Extends.trans {part middle later : AsmSection} (first : Extends part middle)
    (second : Extends middle later) : Extends part later := by
  obtain ⟨bytes, fields, isBytes, isFields, between, none⟩ := first.more
  obtain ⟨bytes', fields', isBytes', isFields', between', none'⟩ := second.more
  refine ⟨second.kind.trans first.kind, Nat.le_trans first.room second.room,
    bytes ++ bytes', fields ++ fields', ?_, ?_, ?_, ?_⟩
  · rw [isBytes', isBytes, append_assoc]
  · rw [isFields', isFields, append_assoc]
  · rw [offsetsOf, map_append]
    exact between.append between'
  · intro zerofill
    obtain ⟨rfl, rfl⟩ := none zerofill
    obtain ⟨rfl, rfl⟩ := none' (first.kind.trans zerofill)
    exact ⟨rfl, rfl⟩

theorem PartOk.extend {part later : AsmSection} (ok : PartOk part)
    (further : Extends part later) : PartOk later := by
  obtain ⟨bytes, fields, isBytes, isFields, between, none⟩ := further.more
  constructor
  · intro zerofill
    rw [further.kind] at zerofill
    obtain ⟨rfl, rfl⟩ := none zerofill
    rw [isBytes, isFields, append_nil, append_nil]
    exact ok.empty zerofill
  · rw [isFields, offsetsOf, map_append]
    exact ok.ordered.append between

theorem extends_bytes {part : AsmSection} (data : List UInt8) (holds : part.zerofill = false) :
    Extends part { part with bytes := part.bytes ++ data } := by
  refine ⟨rfl, Nat.le_refl _, data, [], rfl, (append_nil _).symm, ?_, fun zerofill => ?_⟩
  · simp [Between]
  · rw [holds] at zerofill
    cases zerofill

theorem extends_field {part : AsmSection} {field : DeferredField}
    (stands : field.rawOffset = part.bytes.length) (holds : part.zerofill = false) :
    Extends part { part with deferred := part.deferred ++ [field] } := by
  refine ⟨rfl, Nat.le_refl _, [], [field], (append_nil _).symm, rfl, ?_, fun zerofill => ?_⟩
  · simp [Between, stands]
  · rw [holds] at zerofill
    cases zerofill

theorem extends_room {part : AsmSection} {size : ℕ} (atLeast : part.zerofillSize ≤ size) :
    Extends part { part with zerofillSize := size } :=
  ⟨rfl, atLeast, (Extends.refl part).more⟩

/-- Sections that only grow. -/
structure Grow (before after : List AsmSection) : Prop where
  kept : ∀ (index : ℕ) (part : AsmSection), before[index]? = some part →
    ∃ later, after[index]? = some later ∧ Extends part later
  fresh : ∀ (index : ℕ) (later : AsmSection), before[index]? = none →
    after[index]? = some later → PartOk later

theorem Grow.refl (sections : List AsmSection) : Grow sections sections where
  kept := fun _ part isPart => ⟨part, isPart, .refl part⟩
  fresh := fun _ _ isNone isSome => by simp [isNone] at isSome

theorem Grow.trans {before middle after : List AsmSection} (first : Grow before middle)
    (second : Grow middle after) : Grow before after := by
  constructor
  · intro index part isPart
    obtain ⟨between, isBetween, extended⟩ := first.kept index part isPart
    obtain ⟨later, isLater, further⟩ := second.kept index between isBetween
    exact ⟨later, isLater, extended.trans further⟩
  · intro index later isNone isLater
    cases isBetween : middle[index]? with
    | none => exact second.fresh index later isBetween isLater
    | some between =>
      obtain ⟨found, isFound, further⟩ := second.kept index between isBetween
      rw [isLater] at isFound
      cases isFound
      exact (first.fresh index between isNone isBetween).extend further

theorem Grow.ok {before after : List AsmSection} (grow : Grow before after)
    (ok : ∀ part ∈ before, PartOk part) : ∀ part ∈ after, PartOk part := by
  intro later member
  obtain ⟨index, isLater⟩ := mem_iff_getElem?.mp member
  cases isPart : before[index]? with
  | none => exact grow.fresh index later isPart isLater
  | some part =>
    obtain ⟨found, isFound, further⟩ := grow.kept index part isPart
    rw [isLater] at isFound
    cases isFound
    exact (ok part (mem_of_getElem? isPart)).extend further

/-- A step on the contents of the sections. -/
structure Grown (before after : Assembler) : Prop where
  symbols : after.symbols = before.symbols
  localLabels : after.localLabels = before.localLabels
  sections : Grow before.sections after.sections
  current : before.currentSection < before.sections.length →
    after.currentSection < after.sections.length

namespace Grown

theorem refl (assembler : Assembler) : Grown assembler assembler := ⟨rfl, rfl, .refl _, id⟩

theorem trans {before middle after : Assembler} (first : Grown before middle)
    (second : Grown middle after) : Grown before after :=
  ⟨second.symbols.trans first.symbols, second.localLabels.trans first.localLabels,
    first.sections.trans second.sections, fun valid => second.current (first.current valid)⟩

end Grown

namespace Assembler

def Valid (assembler : Assembler) : Prop := assembler.currentSection < assembler.sections.length

theorem getElem?_current {assembler : Assembler} (valid : assembler.Valid) :
    assembler.sections[assembler.currentSection]? = some assembler.cur := by
  rw [cur, getD_eq_getElem?_getD, getElem?_eq_getElem valid]
  rfl

section

variable {assembler : Assembler} (valid : assembler.Valid) (update : AsmSection → AsmSection)
include valid update

theorem cur_modifyCur : (assembler.modifyCur update).cur = update assembler.cur := by
  rw [modifyCur, cur, getD_eq_getElem?_getD]
  dsimp only
  rw [getElem?_modify_eq, getElem?_current valid]
  rfl

theorem valid_modifyCur : (assembler.modifyCur update).Valid := by
  rw [Valid] at valid ⊢
  simpa [modifyCur] using valid

theorem grown_modifyCur (extended : Extends assembler.cur (update assembler.cur)) :
    Grown assembler (assembler.modifyCur update) := by
  refine ⟨rfl, rfl, ⟨?_, ?_⟩, fun _ => valid_modifyCur valid update⟩
  · intro index part isPart
    rw [modifyCur]
    dsimp only
    rw [getElem?_modify]
    by_cases isCurrent : assembler.currentSection = index
    · subst isCurrent
      rw [getElem?_current valid] at isPart
      cases isPart
      rw [getElem?_current valid]
      exact ⟨_, by simp, extended⟩
    · exact ⟨part, by simp [isCurrent, isPart], .refl part⟩
  · intro index later isNone isLater
    rw [modifyCur] at isLater
    dsimp only at isLater
    rw [getElem?_modify, isNone] at isLater
    cases isLater

end

theorem appendBytes_grown {assembler after : Assembler} {data : List UInt8}
    (valid : assembler.Valid) (appended : assembler.appendBytes data = some after) :
    Grown assembler after := by
  rw [appendBytes] at appended
  split at appended
  case isTrue => cases appended
  case isFalse holds =>
    cases appended
    exact grown_modifyCur valid _ (extends_bytes data (by simpa using holds))

theorem pushDeferred_grown {assembler : Assembler} {field : DeferredField}
    (valid : assembler.Valid) (stands : field.rawOffset = assembler.cur.bytes.length)
    (holds : assembler.cur.zerofill = false) : Grown assembler (assembler.pushDeferred field) :=
  grown_modifyCur valid _ (extends_field stands holds)

section

variable {assembler after : Assembler}

theorem appendLeb_grown {isSigned : Bool} {value : ExprValue} (valid : assembler.Valid)
    (appended : assembler.appendLeb isSigned value = some after) :
    Grown assembler after := by
  rw [appendLeb] at appended
  split at appended
  case isTrue => cases appended
  case isFalse holds =>
    split at appended
    case isTrue => exact appendBytes_grown valid appended
    case isFalse =>
      cases appended
      exact pushDeferred_grown valid rfl (by simpa using holds)

theorem appendFixup_grown {data : List UInt8} {fieldOffset : ℕ} {kind : FixupKind}
    {value : ExprValue} (valid : assembler.Valid)
    (appended : assembler.appendFixup data fieldOffset kind value = some after) :
    Grown assembler after := by
  rw [appendFixup] at appended
  split at appended
  case isTrue => cases appended
  case isFalse =>
    refine Grown.trans ?_ (appendBytes_grown (valid_modifyCur valid _) appended)
    exact grown_modifyCur valid _ ⟨rfl, Nat.le_refl _, (Extends.refl assembler.cur).more⟩

theorem appendDataValue_grown {kind : FixupKind} {value : ExprValue} (valid : assembler.Valid)
    (appended : assembler.appendDataValue kind value = some after) :
    Grown assembler after := by
  rw [appendDataValue] at appended
  split at appended
  case isTrue =>
    split at appended
    case isTrue => exact appendBytes_grown valid appended
    case isFalse => cases appended
  case isFalse => exact appendFixup_grown valid appended

theorem appendBranch_grown {nearBytes : List UInt8} {relOffset : ℕ} {shortOpcode : UInt8}
    {target : SymId} {addend : Word64} (valid : assembler.Valid)
    (appended : assembler.appendBranch nearBytes relOffset shortOpcode target addend = some after) :
    Grown assembler after := by
  rw [appendBranch] at appended
  split at appended
  case isTrue => cases appended
  case isFalse holds =>
    split at appended
    case isTrue => cases appended
    case isFalse =>
      cases appended
      exact pushDeferred_grown valid rfl (by simpa using holds)

end

theorem hasRoom_iff {assembler : Assembler} {size : ℕ} :
    assembler.hasRoom size = true ↔ (assembler.cur.zerofill = true → size < 2 ^ 64) := by
  rw [hasRoom, or_eq_true, not_eq_true', decide_eq_true_iff]
  cases assembler.cur.zerofill <;> simp

theorem appendSpace_grown {assembler after : Assembler} {size : ℕ} {fill : UInt8}
    (valid : assembler.Valid) (fits : assembler.hasRoom (assembler.cur.size + size) = true)
    (appended : assembler.appendSpace size fill = some after) : Grown assembler after := by
  rw [appendSpace] at appended
  split at appended
  case isTrue zerofill =>
    split at appended
    case isTrue => cases appended
    case isFalse =>
      cases appended
      apply grown_modifyCur valid
      apply extends_room
      have small := hasRoom_iff.1 fits zerofill
      rw [AsmSection.size, if_pos zerofill] at small
      rw [mod_eq_of_lt small]
      exact Nat.le_add_right _ _
  case isFalse holds =>
    cases appended
    exact grown_modifyCur valid _ (extends_bytes _ (by simpa using holds))

theorem le_alignUp (size alignLog2 : ℕ) : size ≤ alignUp size alignLog2 := by
  rw [alignUp]
  have positive : 0 < 2 ^ alignLog2 := Nat.two_pow_pos _
  have split := div_add_mod (size + 2 ^ alignLog2 - 1) (2 ^ alignLog2)
  have small := mod_lt (size + 2 ^ alignLog2 - 1) positive
  rw [Nat.mul_comm] at split
  omega

theorem alignCurrent_grown {options : AsmOptions} {assembler after : Assembler} {alignLog2 : ℕ}
    {fill : UInt8} {fillGiven : Bool} {maxBytes : Option ℕ} (valid : assembler.Valid)
    (fits : assembler.hasRoom (alignUp assembler.cur.size alignLog2) = true)
    (aligned : alignCurrent options assembler alignLog2 fill fillGiven maxBytes = some after) :
    Grown assembler after := by
  rw [alignCurrent] at aligned
  split at aligned
  case isTrue => cases aligned
  case isFalse =>
    dsimp only at aligned
    generalize isRaised : (assembler.modifyCur fun part =>
      { part with alignLog2 := max part.alignLog2 alignLog2 }) = raised at aligned
    have raisedValid : raised.Valid := by
      rw [← isRaised]
      exact valid_modifyCur valid _
    have raisedCur : raised.cur = { assembler.cur with
        alignLog2 := max assembler.cur.alignLog2 alignLog2 } := by
      rw [← isRaised]
      exact cur_modifyCur valid _
    have first : Grown assembler raised := by
      rw [← isRaised]
      exact grown_modifyCur valid _ ⟨rfl, Nat.le_refl _, (Extends.refl assembler.cur).more⟩
    refine first.trans ?_
    split at aligned
    case isTrue deferred =>
      split at aligned
      case isTrue => cases aligned
      case isFalse =>
        cases aligned
        rw [and_eq_true, not_eq_true'] at deferred
        exact pushDeferred_grown raisedValid rfl deferred.1
    case isFalse =>
      split at aligned
      case isTrue =>
        cases aligned
        exact .refl _
      case isFalse =>
        split at aligned
        case isTrue zerofill =>
          cases aligned
          apply grown_modifyCur raisedValid
          apply extends_room
          rw [raisedCur] at zerofill
          have small := hasRoom_iff.1 fits zerofill
          have sameSize : raised.cur.size = assembler.cur.size := by
            rw [raisedCur]
            rfl
          rw [sameSize, mod_eq_of_lt small]
          refine Nat.le_trans ?_ (le_alignUp _ _)
          rw [raisedCur, AsmSection.size, if_pos zerofill]
        case isFalse holds =>
          cases aligned
          exact grown_modifyCur raisedValid _ (extends_bytes _ (by simpa using holds))

section

variable (assembler : Assembler) (segname sectname : String) (flags : BitVec 32) (zerofill : Bool)
include assembler segname sectname flags zerofill

theorem findOrAddSection_grow :
    (assembler.findOrAddSection segname sectname flags zerofill).1 <
        (assembler.findOrAddSection segname sectname flags zerofill).2.sections.length ∧
      Grow assembler.sections
        (assembler.findOrAddSection segname sectname flags zerofill).2.sections := by
  rw [findOrAddSection]
  split
  case h_1 index isIndex =>
    obtain ⟨small, _⟩ := findIdx?_eq_some_iff_getElem.mp isIndex
    exact ⟨small, .refl _⟩
  case h_2 =>
    refine ⟨by simp, ?_, ?_⟩
    · intro index part isPart
      have small : index < assembler.sections.length := (List.getElem?_eq_some_iff.mp isPart).1
      refine ⟨part, ?_, .refl part⟩
      dsimp only
      rw [getElem?_append_left small, isPart]
    · intro index later isNone isLater
      have large : assembler.sections.length ≤ index := List.getElem?_eq_none_iff.mp isNone
      dsimp only at isLater
      rw [getElem?_append_right large] at isLater
      have member := mem_of_getElem? isLater
      rw [mem_singleton] at member
      subst member
      exact ⟨fun _ => ⟨rfl, rfl⟩, Nat.le_refl _⟩

theorem findOrAddSection_rest :
    (assembler.findOrAddSection segname sectname flags zerofill).2.symbols = assembler.symbols ∧
      (assembler.findOrAddSection segname sectname flags zerofill).2.localLabels =
        assembler.localLabels := by
  rw [findOrAddSection]
  split
  · exact ⟨rfl, rfl⟩
  · exact ⟨rfl, rfl⟩

theorem switchSection_grown :
    Grown assembler (assembler.switchSection segname sectname flags zerofill) := by
  obtain ⟨small, grow⟩ := findOrAddSection_grow assembler segname sectname flags zerofill
  obtain ⟨sameSymbols, sameLabels⟩ :=
    findOrAddSection_rest assembler segname sectname flags zerofill
  exact ⟨sameSymbols, sameLabels, grow, fun _ => small⟩

end

end Assembler

/-- A point taken in a section that has only grown since. -/
structure Point.Holds (sections : List AsmSection) (point : Point) : Prop where
  ok : PartOk point.part
  grows : ∃ part, sections[point.sectionIndex]? = some part ∧ Extends point.part part

theorem Point.Holds.grow {before after : List AsmSection} {point : Point}
    (holds : point.Holds before) (grow : Grow before after) : point.Holds after := by
  obtain ⟨part, isPart, extended⟩ := holds.grows
  obtain ⟨later, isLater, further⟩ := grow.kept _ part isPart
  exact ⟨holds.ok, later, isLater, extended.trans further⟩

/-- The raw offset of a point. -/
def Point.raw (point : Point) : Word64 := BitVec.ofNat 64 point.part.size

/-- A symbol as the unit keeps it for a place. -/
def Matches (sections : List AsmSection) (symbol : AsmSymbol) : Place → Prop
  | .undefined => symbol.state = .undefined ∧ symbol.deferredSeq = 0
  | .point point addend =>
    symbol.state = .label ∧ symbol.sectionIndex = point.sectionIndex ∧
      symbol.offset = point.raw + addend ∧ symbol.deferredSeq = point.part.deferred.length ∧
      (symbol.fromSet = true → symbol.deferredSeq = 0) ∧ point.Holds sections
  | .number constant =>
    symbol.state = .constant ∧ symbol.value = constant ∧ symbol.deferredSeq = 0
  | .difference constant pos posAddend neg negAddend =>
    symbol.state = .constant ∧
      symbol.value = constant + (pos.raw + posAddend) - (neg.raw + negAddend) ∧
      symbol.deferredSeq = 0 ∧ pos.part.deferred.length = neg.part.deferred.length ∧
      pos.sectionIndex = neg.sectionIndex ∧ pos.Holds sections ∧ neg.Holds sections

section Matching

variable {before after : List AsmSection} {symbol : AsmSymbol} {place : Place}

section

variable (matched : Matches before symbol place)
include matched

theorem Matches.grow (grow : Grow before after) :
    Matches after symbol place := by
  cases place with
  | undefined | number constant => exact matched
  | point point addend =>
    obtain ⟨isLabel, inSection, offset, seq, fromSet, holds⟩ := matched
    exact ⟨isLabel, inSection, offset, seq, fromSet, holds.grow grow⟩
  | difference constant pos posAddend neg negAddend =>
    obtain ⟨isConstant, value, seq, sameFields, sameSection, posHolds, negHolds⟩ := matched
    exact ⟨isConstant, value, seq, sameFields, sameSection, posHolds.grow grow, negHolds.grow grow⟩

/-- Only a label bound to a location has fields before it. -/
theorem Matches.deferredSeq (settable : ¬(symbol.state ≠ .undefined ∧ symbol.fromSet = false)) :
    symbol.deferredSeq = 0 := by
  cases place with
  | undefined => exact matched.2
  | point point addend =>
    obtain ⟨isLabel, _, _, _, fromSet, _⟩ := matched
    apply fromSet
    by_contra notSet
    exact settable ⟨by simp [isLabel], by simpa using notSet⟩
  | number constant => exact matched.2.2
  | difference constant pos posAddend neg negAddend => exact matched.2.2.1

theorem Matches.of_undefined (isUndefined : symbol.state = .undefined) : place = .undefined := by
  cases place with
  | undefined => rfl
  | point point addend | number constant => rw [matched.1] at isUndefined; cases isUndefined
  | difference constant pos posAddend neg negAddend =>
    rw [matched.1] at isUndefined
    cases isUndefined

theorem Matches.of_label (isLabel : symbol.state = .label) :
    ∃ point addend, place = .point point addend := by
  cases place with
  | undefined | number constant | difference constant pos posAddend neg negAddend =>
    rw [matched.1] at isLabel; cases isLabel
  | point point addend => exact ⟨point, addend, rfl⟩

end

end Matching

/-- The unit and the ledger agree. -/
structure Tracks (assembler : Assembler) (ledger : Ledger) : Prop where
  valid : assembler.Valid
  parts : ∀ part ∈ assembler.sections, PartOk part
  symbols : ∀ id, Matches assembler.sections (assembler.sym id) (ledger.places id)
  pending : ∀ entry ∈ assembler.localLabels, ∀ id ∈ entry.2.pendingForward,
    id < assembler.symbols.length
  counters : ∀ entry ∈ ledger.counters,
    entry.1.Holds assembler.sections ∧ entry.1.part.deferred = [] ∧ entry.1.raw = entry.2

namespace Tracks

variable {assembler after : Assembler} {ledger : Ledger}

theorem grown (tracks : Tracks assembler ledger) (grown : Grown assembler after) :
    Tracks after ledger where
  valid := grown.current tracks.valid
  parts := grown.sections.ok tracks.parts
  symbols := by
    intro id
    rw [Assembler.sym, grown.symbols]
    exact (tracks.symbols id).grow grown.sections
  pending := by
    rw [grown.symbols, grown.localLabels]
    exact tracks.pending
  counters := by
    intro entry member
    obtain ⟨holds, noFields, raw⟩ := tracks.counters entry member
    exact ⟨holds.grow grown.sections, noFields, raw⟩

theorem holds_point (tracks : Tracks assembler ledger) :
    assembler.point.Holds assembler.sections := by
  have isCurrent := Assembler.getElem?_current tracks.valid
  exact ⟨tracks.parts _ (mem_of_getElem? isCurrent), _, isCurrent, .refl _⟩

end Tracks

end Aburi.Asm
