import Aburi.Assembler.Positions

/-!
# Every statement keeps the positions

A statement that meets the condition leaves unit and ledger in agreement, and
so does a run of such statements.
-/

namespace Aburi.Asm

open List Option Nat Function

namespace Tracks

variable {assembler after : Assembler} {ledger : Ledger}

section

variable (tracks : Tracks assembler ledger)
include tracks

theorem setSym {id : SymId} {symbol : AsmSymbol} {place : Place}
    (small : id < assembler.symbols.length) (matched : Matches assembler.sections symbol place) :
    Tracks (assembler.setSym id symbol) (ledger.place id place) where
  valid := tracks.valid
  parts := tracks.parts
  symbols := by
    intro other
    rw [Assembler.setSym, Assembler.sym, getD_eq_getElem?_getD, Ledger.place]
    dsimp only
    by_cases same : other = id
    · subst same
      rw [getElem?_set_self small, update_self]
      exact matched
    · rw [getElem?_set_ne (Ne.symm same), update_of_ne same, ← getD_eq_getElem?_getD]
      exact tracks.symbols other
  pending := by
    intro entry member pendingId isPending
    rw [Assembler.setSym, length_set]
    exact tracks.pending entry member pendingId isPending
  counters := tracks.counters

theorem addSymbol {symbol : AsmSymbol} (isUndefined : symbol.state = .undefined)
    (noFields : symbol.deferredSeq = 0) :
    Tracks { assembler with symbols := assembler.symbols ++ [symbol] } ledger where
  valid := tracks.valid
  parts := tracks.parts
  symbols := by
    intro id
    rw [Assembler.sym, getD_eq_getElem?_getD]
    dsimp only
    have matched := tracks.symbols id
    rw [Assembler.sym, getD_eq_getElem?_getD] at matched
    rcases Nat.lt_trichotomy id assembler.symbols.length with small | same | large
    · rw [getElem?_append_left small]
      exact matched
    · rw [getElem?_eq_none (Nat.le_of_eq same.symm)] at matched
      rw [matched.of_undefined rfl, same, getElem?_concat_length]
      exact ⟨isUndefined, noFields⟩
    · rw [getElem?_eq_none (Nat.le_of_lt large)] at matched
      rw [getElem?_eq_none (by rw [length_append]; exact large)]
      exact matched
  pending := by
    intro entry member id isPending
    rw [length_append]
    exact Nat.lt_add_right _ (tracks.pending entry member id isPending)
  counters := tracks.counters

theorem intern (name : String) :
    (assembler.intern name).1 < (assembler.intern name).2.symbols.length ∧
      Tracks (assembler.intern name).2 ledger := by
  rw [Assembler.intern]
  split
  case h_1 id isId =>
    obtain ⟨small, _⟩ := findIdx?_eq_some_iff_getElem.mp isId
    exact ⟨small, tracks⟩
  case h_2 => exact ⟨by simp, tracks.addSymbol rfl rfl⟩

end

theorem intern_point (assembler : Assembler) (name : String) :
    (assembler.intern name).2.point = assembler.point ∧
      (assembler.intern name).2.sections = assembler.sections := by
  rw [Assembler.intern]
  split
  · exact ⟨rfl, rfl⟩
  · exact ⟨rfl, rfl⟩

theorem makeInternal (tracks : Tracks assembler ledger) (name : String) :
    Tracks (assembler.makeInternal name).2 ledger := tracks.addSymbol rfl rfl

theorem bindSymbolToLocation (tracks : Tracks assembler ledger) {id : SymId}
    (small : id < assembler.symbols.length)
    (bound : assembler.bindSymbolToLocation id = some after) :
    Tracks after (ledger.place id (.point assembler.point 0)) := by
  rw [Assembler.bindSymbolToLocation] at bound
  split at bound
  case isTrue => cases bound
  case isFalse =>
    cases bound
    apply tracks.setSym small
    refine ⟨rfl, rfl, ?_, rfl, fun fromSet => ?_, tracks.holds_point⟩
    · exact (BitVec.add_zero _).symm
    · cases fromSet

theorem bindSymbolToLocation_rest {id : SymId}
    (bound : assembler.bindSymbolToLocation id = some after) :
    after.point = assembler.point ∧ after.sections = assembler.sections ∧
      after.symbols.length = assembler.symbols.length ∧
      after.localLabels = assembler.localLabels := by
  rw [Assembler.bindSymbolToLocation] at bound
  split at bound
  case isTrue => cases bound
  case isFalse =>
    cases bound
    exact ⟨rfl, rfl, length_set, rfl⟩

theorem bindAll {ids : List SymId} {assembler : Assembler} {ledger : Ledger}
    (tracks : Tracks assembler ledger) (small : ∀ id ∈ ids, id < assembler.symbols.length)
    (bound : ids.foldlM Assembler.bindSymbolToLocation assembler = some after) :
    Tracks after
      (ids.foldl (fun ledger id => ledger.place id (.point assembler.point 0)) ledger) ∧
      after.symbols.length = assembler.symbols.length ∧
      after.localLabels = assembler.localLabels := by
  induction ids generalizing assembler ledger with
  | nil =>
    cases bound
    exact ⟨tracks, rfl, rfl⟩
  | cons id ids induction =>
    rw [foldlM_cons, bind_eq_bind, bind_eq_some_iff] at bound
    obtain ⟨middle, isMiddle, bound⟩ := bound
    obtain ⟨samePoint, _, sameCount, sameLabels⟩ := bindSymbolToLocation_rest isMiddle
    have tracked := tracks.bindSymbolToLocation (small id mem_cons_self) isMiddle
    obtain ⟨tracked, count, labels⟩ := induction tracked (by
      intro other member
      rw [sameCount]
      exact small other (mem_cons_of_mem _ member)) bound
    rw [samePoint] at tracked
    exact ⟨tracked, count.trans sameCount, labels.trans sameLabels⟩

section

variable (tracks : Tracks assembler ledger)
include tracks

theorem setLocalLabel {number : ℕ} {state : LocalLabelState}
    (small : ∀ id ∈ state.pendingForward, id < assembler.symbols.length) :
    Tracks (assembler.setLocalLabel number state) ledger where
  valid := tracks.valid
  parts := tracks.parts
  symbols := tracks.symbols
  pending := by
    intro entry member id isPending
    rcases mem_cons.mp member with rfl | older
    · exact small id isPending
    · exact tracks.pending entry older id isPending
  counters := tracks.counters

theorem pending_localLabel (number : ℕ) :
    ∀ id ∈ (assembler.localLabel number).pendingForward, id < assembler.symbols.length := by
  intro id isPending
  rw [Assembler.localLabel] at isPending
  cases found : assembler.localLabels.lookup number with
  | none =>
    rw [found] at isPending
    cases isPending
  | some state =>
    rw [found] at isPending
    obtain ⟨newer, older, isList, _⟩ := lookup_eq_some_iff.mp found
    refine tracks.pending (number, state) ?_ id isPending
    rw [isList]
    exact mem_append_right _ mem_cons_self

theorem exprHere (noFields : assembler.cur.deferred = []) :
    Tracks assembler.exprHere.2
      (ledger.place assembler.symbols.length (.point assembler.point 0)) := by
  have added := tracks.makeInternal "."
  apply added.setSym
  · simp [Assembler.makeInternal]
  · refine ⟨rfl, rfl, ?_, ?_, ?_, tracks.holds_point⟩
    · exact (BitVec.add_zero _).symm
    · simp [Assembler.sym, Assembler.point, noFields]
    · intro _
      simp [Assembler.sym]

theorem exprLocalRef {number : ℕ} {backward : Bool}
    (referred : assembler.exprLocalRef number backward = some after) : Tracks after ledger := by
  rw [Assembler.exprLocalRef] at referred
  dsimp only at referred
  split at referred
  case isTrue =>
    split at referred
    case isTrue => cases referred
    case isFalse =>
      cases referred
      exact tracks
  case isFalse =>
    cases referred
    apply (tracks.makeInternal _).setLocalLabel
    intro id isPending
    rcases mem_append.mp isPending with older | new
    · have := tracks.pending_localLabel number id older
      simp only [Assembler.makeInternal, length_append]
      exact Nat.lt_add_right _ this
    · rw [mem_singleton.mp new]
      simp [Assembler.makeInternal]

theorem defineLocalLabel {number : ℕ} (defined : assembler.defineLocalLabel number = some after) :
    Tracks after
      ((assembler.symbols.length :: (assembler.localLabel number).pendingForward).foldl
        (fun ledger id => ledger.place id (.point assembler.point 0)) ledger) := by
  rw [Assembler.defineLocalLabel] at defined
  simp only [bind_eq_bind, bind_eq_some_iff, Option.some.injEq] at defined
  obtain ⟨middle, bound, rfl⟩ := defined
  obtain ⟨tracked, _, _⟩ := (tracks.makeInternal _).bindAll (by
    intro id member
    have count : (assembler.makeInternal (toString number ++ ":")).2.symbols.length =
        assembler.symbols.length + 1 := by simp [Assembler.makeInternal]
    rw [count]
    rcases mem_cons.mp member with rfl | isPending
    · exact lt_succ_self _
    · exact lt_succ_of_lt (tracks.pending_localLabel number id isPending)) bound
  apply tracked.setLocalLabel
  intro id isPending
  cases isPending

theorem applySet {id : SymId} {value : ExprValue} (small : id < assembler.symbols.length)
    (settles : assembler.settlesValue value = true)
    (assigned : assembler.applySet id value = some after) :
    Tracks after (ledger.place id (ledger.valueOf value)) := by
  rw [Assembler.applySet] at assigned
  dsimp only at assigned
  split at assigned
  case isTrue => cases assigned
  case isFalse settable =>
    have noFields := (tracks.symbols id).deferredSeq settable
    rw [Assembler.settlesValue] at settles
    rw [Ledger.valueOf]
    split at assigned
    case h_1 => cases assigned
    case h_2 neg pos isNeg isPos =>
      rw [isNeg, isPos] at settles ⊢
      dsimp only at settles ⊢
      split at assigned
      case isTrue => cases assigned
      case isFalse labels =>
        cases assigned
        simp only [ne_eq, not_or, not_not] at labels
        obtain ⟨posLabel, negLabel, sameSection⟩ := labels
        have posMatches := tracks.symbols pos
        have negMatches := tracks.symbols neg
        obtain ⟨posPoint, posAddend, isPosPlace⟩ := posMatches.of_label posLabel
        obtain ⟨negPoint, negAddend, isNegPlace⟩ := negMatches.of_label negLabel
        rw [isPosPlace] at posMatches
        rw [isNegPlace] at negMatches
        obtain ⟨_, posSection, posOffset, posSeq, _, posHolds⟩ := posMatches
        obtain ⟨_, negSection, negOffset, negSeq, _, negHolds⟩ := negMatches
        rw [isPosPlace, isNegPlace]
        apply tracks.setSym small
        refine ⟨rfl, ?_, noFields, ?_, ?_, posHolds, negHolds⟩
        · rw [posOffset, negOffset]
        · rw [← posSeq, ← negSeq]
          exact beq_iff_eq.mp settles
        · rw [← posSection, ← negSection]
          exact sameSection
    case h_3 target isNeg isPos =>
      rw [isNeg, isPos] at settles ⊢
      dsimp only at settles ⊢
      split at assigned
      case isTrue => cases assigned
      case isFalse isLabel =>
        cases assigned
        rw [ne_eq, not_not] at isLabel
        have matched := tracks.symbols target
        obtain ⟨point, addend, isPlace⟩ := matched.of_label isLabel
        rw [isPlace] at matched
        obtain ⟨_, inSection, offset, seq, _, holds⟩ := matched
        rw [isPlace]
        apply tracks.setSym small
        refine ⟨rfl, inSection, ?_, ?_, fun _ => noFields, holds⟩
        · rw [offset, BitVec.add_assoc]
        · rw [← seq, beq_iff_eq.mp settles]
          exact noFields
    case h_4 isNeg isPos =>
      rw [isNeg, isPos]
      cases assigned
      apply tracks.setSym small
      exact ⟨rfl, rfl, noFields⟩

theorem counter {target : Word64} (noFields : assembler.cur.deferred = [])
    (reached : assembler.cur.size = target.toNat) :
    Tracks assembler { ledger with counters := ledger.counters ++ [(assembler.point, target)] } where
  valid := tracks.valid
  parts := tracks.parts
  symbols := tracks.symbols
  pending := tracks.pending
  counters := by
    intro entry member
    rcases mem_append.mp member with older | new
    · exact tracks.counters entry older
    · rw [mem_singleton.mp new]
      refine ⟨tracks.holds_point, noFields, ?_⟩
      rw [Point.raw, Assembler.point]
      dsimp only
      rw [reached, BitVec.ofNat_toNat]
      exact BitVec.setWidth_eq _

theorem enter {index : ℕ} (small : index < assembler.sections.length) :
    Tracks { assembler with currentSection := index } ledger :=
  ⟨small, tracks.parts, tracks.symbols, tracks.pending, tracks.counters⟩

end

end Tracks

namespace Assembler

variable {assembler after : Assembler}

/-- Space is added at the end and moves no field. -/
theorem appendSpace_cur {size : ℕ} {fill : UInt8} (valid : assembler.Valid)
    (fits : assembler.hasRoom (assembler.cur.size + size) = true)
    (appended : assembler.appendSpace size fill = some after) :
    after.cur.size = assembler.cur.size + size ∧ after.cur.deferred = assembler.cur.deferred := by
  rw [appendSpace] at appended
  split at appended
  case isTrue zerofill =>
    split at appended
    case isTrue => cases appended
    case isFalse =>
      cases appended
      have small := hasRoom_iff.mp fits zerofill
      rw [cur_modifyCur valid]
      rw [AsmSection.size, if_pos zerofill] at small ⊢
      rw [AsmSection.size, if_pos zerofill, mod_eq_of_lt small]
      exact ⟨rfl, rfl⟩
  case isFalse holds =>
    cases appended
    rw [cur_modifyCur valid]
    refine ⟨?_, rfl⟩
    rw [AsmSection.size, if_neg holds, AsmSection.size, if_neg holds, length_append,
      length_replicate]

/-- In a zerofill section the size is aligned at once. -/
theorem alignCurrent_zerofill {options : AsmOptions} {alignLog2 : ℕ} {fill : UInt8}
    {fillGiven : Bool} (valid : assembler.Valid) (zerofill : assembler.cur.zerofill = true)
    (aligned : alignCurrent options assembler alignLog2 fill fillGiven none = some after) :
    after.cur.zerofillSize = alignUp assembler.cur.size alignLog2 % 2 ^ 64 := by
  rw [alignCurrent] at aligned
  split at aligned
  case isTrue => cases aligned
  case isFalse =>
    have raisedValid := valid_modifyCur valid fun part =>
      { part with alignLog2 := max part.alignLog2 alignLog2 }
    simp only [cur_modifyCur valid, zerofill, Bool.not_true, Bool.false_and, any_none,
      if_true, Option.some.injEq, Bool.false_eq_true, if_false] at aligned
    rw [← aligned, cur_modifyCur raisedValid]
    simp [AsmSection.size, zerofill]

theorem enterZerofill_grown {options : AsmOptions} {segname sectname : String} {alignLog2 size : ℕ}
    (fits : (Action.zerofillSymbol segname sectname name size alignLog2).meets assembler = true)
    (entered : enterZerofill options assembler segname sectname alignLog2 = some after) :
    Grown assembler after ∧ after.cur.zerofillSize + size < 2 ^ 64 := by
  rw [enterZerofill] at entered
  rw [Action.meets] at fits
  obtain ⟨small, grow⟩ := findOrAddSection_grow assembler segname sectname 0 true
  obtain ⟨sameSymbols, sameLabels⟩ := findOrAddSection_rest assembler segname sectname 0 true
  generalize assembler.findOrAddSection segname sectname 0 true = found at *
  obtain ⟨index, found⟩ := found
  dsimp only at *
  rw [decide_eq_true_iff] at fits
  split at entered
  case isTrue => cases entered
  case isFalse isZerofill =>
    have zerofill : (found.sections.getD index default).zerofill = true := by
      simpa using isZerofill
    have valid : Valid { found with currentSection := index } := small
    have first : Grown assembler { found with currentSection := index } :=
      ⟨sameSymbols, sameLabels, grow, fun _ => small⟩
    have size := alignCurrent_zerofill valid zerofill entered
    refine ⟨first.trans (alignCurrent_grown valid ?_ entered), ?_⟩
    · apply hasRoom_iff.mpr
      intro _
      exact Nat.lt_of_le_of_lt (Nat.le_add_right _ _) fits
    · rw [size]
      exact Nat.lt_of_le_of_lt (Nat.add_le_add_right (mod_le _ _) _) fits

end Assembler

namespace Tracks

variable {options : AsmOptions} {assembler after : Assembler} {ledger : Ledger}

theorem zerofillSymbol (tracks : Tracks assembler ledger) {segname sectname name : String}
    {size alignLog2 : ℕ}
    (fits : (Action.zerofillSymbol segname sectname name size alignLog2).meets assembler = true)
    (reserved : Assembler.zerofillSymbol options assembler segname sectname name size alignLog2 =
      some after) :
    Tracks after
      (ledger.record options assembler after
        (.zerofillSymbol segname sectname name size alignLog2)) := by
  rw [Assembler.zerofillSymbol] at reserved
  simp only [bind_eq_bind, bind_eq_some_iff, Option.some.injEq] at reserved
  obtain ⟨entered, isEntered, bound, isBound, rfl⟩ := reserved
  rw [Ledger.record, isEntered]
  obtain ⟨grown, small⟩ := Assembler.enterZerofill_grown fits isEntered
  obtain ⟨inRange, named⟩ := (tracks.grown grown).intern name
  obtain ⟨samePoint, sameSections, _⟩ := bindSymbolToLocation_rest isBound
  obtain ⟨namedPoint, namedSections⟩ := intern_point entered name
  have tracked := named.bindSymbolToLocation inRange isBound
  rw [namedPoint] at tracked
  have sameCur : bound.cur = entered.cur := congrArg Point.part (samePoint.trans namedPoint)
  have wider : Extends bound.cur
      { bound.cur with zerofillSize := (bound.cur.zerofillSize + size) % 2 ^ 64 } := by
    apply extends_room
    rw [sameCur, mod_eq_of_lt small]
    exact Nat.le_add_right _ _
  have larger := Assembler.grown_modifyCur tracked.valid
    (fun part => { part with zerofillSize := (part.zerofillSize + size) % 2 ^ 64 }) wider
  apply (tracked.grown larger).enter
  obtain ⟨later, isLater, _⟩ := grown.sections.kept _ _ (Assembler.getElem?_current tracks.valid)
  rw [← namedSections, ← sameSections] at isLater
  rw [Assembler.modifyCur, length_modify]
  exact (List.getElem?_eq_some_iff.mp isLater).1

theorem step (tracks : Tracks assembler ledger) {action : Action}
    (meets : action.meets assembler = true)
    (performed : action.perform options assembler = some after) :
    Tracks after (ledger.record options assembler after action) := by
  have valid := tracks.valid
  cases action with
  | symbol name =>
    cases performed
    exact (tracks.intern name).2
  | here =>
    cases performed
    exact tracks.exprHere (List.isEmpty_iff.mp meets)
  | localRef number backward => exact tracks.exprLocalRef performed
  | label name =>
    obtain ⟨small, named⟩ := tracks.intern name
    have bound := named.bindSymbolToLocation small performed
    rw [(intern_point assembler name).1] at bound
    exact bound
  | localLabel number => exact tracks.defineLocalLabel performed
  | assign name value =>
    obtain ⟨small, named⟩ := tracks.intern name
    exact named.applySet small meets performed
  | equiv name value =>
    obtain ⟨small, named⟩ := tracks.intern name
    rw [Action.perform, Assembler.equiv] at performed
    dsimp only at performed
    split at performed
    case isTrue => cases performed
    case isFalse => exact named.applySet small meets performed
  | switchSection segname sectname flags zerofill =>
    cases performed
    exact tracks.grown (Assembler.switchSection_grown _ _ _ _ _)
  | zerofillSymbol segname sectname name size alignLog2 =>
    exact tracks.zerofillSymbol meets performed
  | align alignLog2 fill fillGiven maxBytes =>
    exact tracks.grown (Assembler.alignCurrent_grown valid meets performed)
  | leb isSigned value => exact tracks.grown (Assembler.appendLeb_grown valid performed)
  | bytes data => exact tracks.grown (Assembler.appendBytes_grown valid performed)
  | fixup data fieldOffset kind value =>
    exact tracks.grown (Assembler.appendFixup_grown valid performed)
  | dataValue kind value => exact tracks.grown (Assembler.appendDataValue_grown valid performed)
  | branch nearBytes relOffset shortOpcode target addend =>
    exact tracks.grown (Assembler.appendBranch_grown valid performed)
  | space size fill => exact tracks.grown (Assembler.appendSpace_grown valid meets performed)
  | org target fill =>
    rw [Action.perform, Assembler.org] at performed
    split at performed
    case isTrue => cases performed
    case isFalse reachable =>
      rw [not_or, Nat.not_lt] at reachable
      have total : assembler.cur.size + (target.toNat - assembler.cur.size) = target.toNat :=
        Nat.add_sub_cancel' reachable.2
      have fits : assembler.hasRoom
          (assembler.cur.size + (target.toNat - assembler.cur.size)) = true := by
        rw [total]
        exact Assembler.hasRoom_iff.mpr fun _ => target.isLt
      obtain ⟨size, fields⟩ := Assembler.appendSpace_cur valid fits performed
      apply (tracks.grown (Assembler.appendSpace_grown valid fits performed)).counter
      · rw [fields]
        exact List.isEmpty_iff.mp meets
      · rw [size, total]

theorem start (options : AsmOptions) : Tracks (Assembler.start options) {} where
  valid := Nat.zero_lt_one
  parts := by
    intro part member
    rw [mem_singleton.mp member]
    split
    · exact ⟨fun _ => ⟨rfl, rfl⟩, Nat.le_refl _⟩
    · exact ⟨fun _ => ⟨rfl, rfl⟩, Nat.le_refl _⟩
  symbols := fun _ => ⟨rfl, rfl⟩
  pending := by
    intro entry member
    cases member
  counters := by
    intro entry member
    cases member

theorem run {actions : List Action} {assembler final : Assembler} {ledger record : Ledger}
    (tracks : Tracks assembler ledger) (meets : meetsAll options actions assembler = true)
    (ran : runActions options actions assembler ledger = some (final, record)) :
    Tracks final record := by
  induction actions generalizing assembler ledger with
  | nil =>
    cases ran
    exact tracks
  | cons action actions induction =>
    rw [runActions, bind_eq_some_iff] at ran
    obtain ⟨after, performed, ran⟩ := ran
    rw [meetsAll, Bool.and_eq_true] at meets
    obtain ⟨first, rest⟩ := meets
    rw [performed] at rest
    exact induction (tracks.step first performed) rest ran

end Tracks

end Aburi.Asm
