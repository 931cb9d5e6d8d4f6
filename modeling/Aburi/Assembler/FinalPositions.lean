import Aburi.Assembler.Tracking
import Mathlib.Data.List.Nodup

/-!
# Final positions

The expansion puts every recorded position behind the final contents that
precede its point.
-/

namespace Aburi.Asm

open Assembler List Function

/-- The bytes of a section. -/
def contents (part : AsmSection) : List UInt8 :=
  if part.zerofill then replicate part.zerofillSize 0 else part.bytes

attribute [local grind =] Assembler.interleave

/-- What a section that has come this far puts before the next byte. -/
def precedingIn (layout : Layout) (part : AsmSection) : List UInt8 :=
  if part.zerofill then replicate part.zerofillSize 0
  else
    interleave part.bytes 0 (layout.fields.take part.deferred.length)
      (layout.chunks.take part.deferred.length)

def Point.preceding (layouts : List Layout) (point : Point) : List UInt8 :=
  precedingIn (layouts.getD point.sectionIndex {}) point.part

/-- The number of bytes before a point. -/
def Point.offset (layouts : List Layout) (point : Point) : Word64 :=
  BitVec.ofNat 64 (point.preceding layouts).length

/-- The bytes before a point start the final section. -/
def Point.Starts (final : Assembler) (layouts : List Layout) (point : Point) : Prop :=
  point.preceding layouts <+: contents (final.sections.getD point.sectionIndex default)

/-- Final positions are the numbers of bytes before the points that the ledger
keeps. -/
structure Final (ledger : Ledger) (final : Assembler) (layouts : List Layout) : Prop where
  labels : ∀ id, (final.sym id).state = .label →
    ∃ point addend, ledger.places id = .point point addend
  points : ∀ id point addend, ledger.places id = .point point addend →
    (final.sym id).state = .label ∧ (final.sym id).sectionIndex = point.sectionIndex ∧
      point.Starts final layouts ∧ (final.sym id).offset = point.offset layouts + addend
  differences : ∀ id constant pos posAddend neg negAddend,
    ledger.places id = .difference constant pos posAddend neg negAddend →
    (final.sym id).state = .constant ∧ pos.Starts final layouts ∧ neg.Starts final layouts ∧
      (final.sym id).value =
        constant + (pos.offset layouts + posAddend) - (neg.offset layouts + negAddend)
  counters : ∀ entry ∈ ledger.counters,
    entry.1.Starts final layouts ∧ entry.1.offset layouts = entry.2

@[simp] theorem interleave_nil (bytes : List UInt8) (cursor : ℕ) (chunks : List (List UInt8)) :
    interleave bytes cursor [] chunks = bytes.drop cursor := by
  simp [Assembler.interleave]

@[simp] theorem interleave_no_chunks (bytes : List UInt8) (cursor : ℕ)
    (fields : List DeferredField) : interleave bytes cursor fields [] = bytes.drop cursor := by
  simp [Assembler.interleave]

variable {fields : List DeferredField}

theorem interleave_length {bytes : List UInt8} {cursor : ℕ} {chunks : List (List UInt8)}
    (between : Between cursor bytes.length (offsetsOf fields))
    (paired : chunks.length = fields.length) :
    (interleave bytes cursor fields chunks).length =
      bytes.length - cursor + (chunks.map length).sum := by
  induction fields generalizing cursor chunks with
  | nil =>
    rw [eq_nil_of_length_eq_zero paired]
    simp [Assembler.interleave]
  | cons field fields induction =>
    cases chunks with
    | nil => cases paired
    | cons chunk chunks =>
      obtain ⟨after, rest⟩ := between
      have inside := rest.le
      rw [Assembler.interleave, length_append, length_append,
        induction rest (Nat.succ.inj paired), length_take, length_drop, map_cons,
        sum_cons]
      omega

theorem interleave_behind {bytes more : List UInt8} {cursor : ℕ} {chunks : List (List UInt8)}
    (inside : cursor ≤ bytes.length)
    (between : Between bytes.length (bytes ++ more).length (offsetsOf fields)) :
    interleave (bytes ++ more) cursor fields chunks =
      bytes.drop cursor ++ interleave (bytes ++ more) bytes.length fields chunks := by
  have plain : (bytes ++ more).drop cursor = bytes.drop cursor ++ more :=
    drop_append_of_le_length inside
  cases fields with
  | nil => rw [interleave_nil, interleave_nil, plain, drop_left]
  | cons field fields =>
    cases chunks with
    | nil => rw [interleave_no_chunks, interleave_no_chunks, plain, drop_left]
    | cons chunk chunks =>
      have after : bytes.length ≤ field.rawOffset := between.1
      have count : field.rawOffset - cursor - (bytes.drop cursor).length =
          field.rawOffset - bytes.length := by
        rw [length_drop]
        omega
      have whole : (bytes.drop cursor).take (field.rawOffset - cursor) = bytes.drop cursor := by
        apply take_of_length_le
        rw [length_drop]
        omega
      rw [Assembler.interleave, Assembler.interleave, plain, take_append, whole, count, drop_left,
        append_assoc, append_assoc, append_assoc]

theorem interleave_append {bytes more : List UInt8} {cursor : ℕ}
    {fields further : List DeferredField} {chunks furtherChunks : List (List UInt8)}
    (first : Between cursor bytes.length (offsetsOf fields))
    (second : Between bytes.length (bytes ++ more).length (offsetsOf further))
    (paired : chunks.length = fields.length) :
    interleave (bytes ++ more) cursor (fields ++ further) (chunks ++ furtherChunks) =
      interleave bytes cursor fields chunks ++
        interleave (bytes ++ more) bytes.length further furtherChunks := by
  induction fields generalizing cursor chunks with
  | nil =>
    rw [eq_nil_of_length_eq_zero paired, nil_append, nil_append, interleave_nil]
    exact interleave_behind first second
  | cons field fields induction =>
    cases chunks with
    | nil => cases paired
    | cons chunk chunks =>
      obtain ⟨after, rest⟩ := first
      have inside := rest.le
      have sameStart : ((bytes ++ more).drop cursor).take (field.rawOffset - cursor) =
          (bytes.drop cursor).take (field.rawOffset - cursor) := by
        rw [drop_append_of_le_length (by omega)]
        apply take_append_of_le_length
        rw [length_drop]
        omega
      rw [cons_append, cons_append, Assembler.interleave, Assembler.interleave,
        induction rest (Nat.succ.inj paired), sameStart, append_assoc, append_assoc,
        append_assoc]

variable {sectionIndex : ℕ}

section Sections

variable {layout : Layout} {part later : AsmSection}

theorem Assembler.Layout.Fits.paired (fits : layout.Fits later.deferred) :
    layout.chunks.length = layout.fields.length := by
  have lengths := congrArg length fits.sizes
  rwa [length_map, length_map] at lengths

theorem Assembler.Layout.Fits.split (fits : layout.Fits later.deferred) {fields : List DeferredField}
    (isFields : later.deferred = part.deferred ++ fields) :
    offsetsOf (layout.fields.take part.deferred.length) = offsetsOf part.deferred ∧
      offsetsOf (layout.fields.drop part.deferred.length) = offsetsOf fields ∧
      part.deferred.length ≤ layout.fields.length := by
  have offsets := fits.offsets
  rw [isFields, map_append] at offsets
  have count : (offsetsOf part.deferred).length = part.deferred.length := length_map _
  refine ⟨?_, ?_, ?_⟩
  · rw [offsetsOf, map_take, offsets, ← count]
    exact take_left
  · rw [offsetsOf, map_drop, offsets, ← count]
    exact drop_left
  · have lengths := congrArg length offsets
    rw [length_map, length_append, length_map] at lengths
    omega

section

variable (ok : PartOk part) (extended : Extends part later) (fits : layout.Fits later.deferred)
include ok extended fits

theorem precedingIn_length :
    (precedingIn layout part).length =
      part.size + sizesBefore layout.fields part.deferred.length := by
  rw [precedingIn, AsmSection.size]
  split
  case isTrue zerofill =>
    rw [(ok.empty zerofill).2]
    simp [sizesBefore]
  case isFalse =>
    obtain ⟨bytes, fields, isBytes, isFields, -⟩ := extended.more
    obtain ⟨before, -, count⟩ := fits.split isFields
    rw [interleave_length]
    · rw [Nat.sub_zero, map_take, fits.sizes, sizesBefore, map_take]
    · rw [before]
      exact ok.ordered
    · rw [length_take, length_take, fits.paired]

theorem precedingIn_prefix :
    precedingIn layout part <+: contents (expandPart layout later) := by
  obtain ⟨bytes, fields, isBytes, isFields, between, -⟩ := extended.more
  have kind : (expandPart layout later).zerofill = part.zerofill := extended.kind
  rw [precedingIn, contents, kind]
  split
  case isTrue =>
    refine ⟨replicate (later.zerofillSize - part.zerofillSize) 0, ?_⟩
    rw [replicate_append_replicate, Nat.add_sub_cancel' extended.room]
    rfl
  case isFalse =>
    obtain ⟨before, behind, count⟩ := fits.split isFields
    have joined := @interleave_append part.bytes bytes 0
      (layout.fields.take part.deferred.length) (layout.fields.drop part.deferred.length)
      (layout.chunks.take part.deferred.length) (layout.chunks.drop part.deferred.length)
      (by rw [before]; exact ok.ordered) (by rw [behind, ← isBytes]; exact between)
      (by rw [length_take, length_take, fits.paired])
    rw [take_append_drop, take_append_drop, ← isBytes] at joined
    exact ⟨_, joined.symm⟩

end

theorem moved_raw {addend : Word64} (ok : PartOk part) (extended : Extends part later)
    (fits : layout.Fits later.deferred) :
    moved layout.fields (Point.raw ⟨sectionIndex, part⟩ + addend) part.deferred.length =
      BitVec.ofNat 64 (precedingIn layout part).length + addend := by
  obtain ⟨bytes, fields, isBytes, isFields, -⟩ := extended.more
  obtain ⟨-, -, count⟩ := fits.split isFields
  rw [moved, Nat.min_eq_left count, precedingIn_length ok extended fits, BitVec.ofNat_add,
    Point.raw, BitVec.add_assoc, BitVec.add_comm addend, BitVec.add_assoc]

end Sections

namespace Assembler

theorem moved_none (offset : Word64) (seq : ℕ) : moved [] offset seq = offset := by
  rw [moved, sizesBefore]
  simp

theorem expandPart_none {part : AsmSection} (noFields : part.deferred = []) :
    expandPart {} part = part := by
  simp only [expandPart, Layout.chunks, moved_none, interleave_nil, drop_zero, map_id',
    flatMap_nil, append_nil]
  rw [← noFields]

theorem applyLayout_none {assembler : Assembler}
    (noFields : (assembler.sections.getD sectionIndex default).deferred = []) :
    assembler.applyLayout sectionIndex {} = assembler := by
  have symbols : assembler.symbols.map (moveSymbol sectionIndex {}) = assembler.symbols := by
    apply map_id''
    intro symbol
    rw [moveSymbol]
    split
    · rw [moved_none]
    · rfl
  have sections : assembler.sections.modify sectionIndex (expandPart {}) = assembler.sections := by
    apply ext_getElem?
    intro index
    rw [getElem?_modify]
    by_cases same : sectionIndex = index
    · subst same
      cases isPart : assembler.sections[sectionIndex]? with
      | none => rfl
      | some part =>
        rw [getD_eq_getElem?_getD, isPart, Option.getD_some] at noFields
        simp [expandPart_none noFields]
    · simp [same]
  rw [applyLayout, symbols, sections]

variable {options : AsmOptions}

theorem layoutSection_none {assembler : Assembler} {layout : Layout}
    (noFields : (assembler.sections.getD sectionIndex default).deferred.isEmpty = true)
    (laidOut : assembler.layoutSection options sectionIndex = some layout) : layout = {} := by
  rw [layoutSection] at laidOut
  dsimp only at laidOut
  rw [if_pos noFields] at laidOut
  cases laidOut
  rfl

theorem sym_applyLayout (assembler : Assembler) (sectionIndex : ℕ) (layout : Layout) (id : SymId) :
    (assembler.applyLayout sectionIndex layout).sym id =
      moveSymbol sectionIndex layout (assembler.sym id) := by
  rw [sym, sym, applyLayout, getD_eq_getElem?_getD, getD_eq_getElem?_getD, getElem?_map]
  cases assembler.symbols[id]? with
  | none => simp [moveSymbol, default, instInhabitedAsmSymbol.default]
  | some symbol => rfl

/-- What the expansion of some sections leaves. -/
structure Expanded (before final : Assembler) (layoutOf : ℕ → Layout) (indices : List ℕ) :
    Prop where
  fits : ∀ index ∈ indices, (layoutOf index).Fits (before.sections.getD index default).deferred
  inside : ∀ index ∈ indices,
    final.sections[index]? = (before.sections[index]?).map (expandPart (layoutOf index))
  outside : ∀ index, index ∉ indices → final.sections[index]? = before.sections[index]?
  moves : ∀ id, (before.sym id).sectionIndex ∈ indices →
    final.sym id =
      moveSymbol (before.sym id).sectionIndex (layoutOf (before.sym id).sectionIndex)
        (before.sym id)
  stays : ∀ id, (before.sym id).sectionIndex ∉ indices → final.sym id = before.sym id

theorem moveSymbol_other {layout : Layout} {symbol : AsmSymbol}
    (other : symbol.sectionIndex ≠ sectionIndex) :
    moveSymbol sectionIndex layout symbol = symbol := by
  rw [moveSymbol, if_neg (by simp [other])]

theorem moveSymbol_section (sectionIndex : ℕ) (layout : Layout) (symbol : AsmSymbol) :
    (moveSymbol sectionIndex layout symbol).sectionIndex = symbol.sectionIndex := by
  rw [moveSymbol]
  split
  · rfl
  · rfl

/-- The first section is laid out by itself; one without fields is as good as expanded. -/
theorem expandSections_cons {index : ℕ} {rest : List ℕ} {before final : Assembler}
    {layouts : List Layout}
    (expanded : expandSections options (index :: rest) before = some (final, layouts)) :
    ∃ layout more, layouts = layout :: more ∧
      before.layoutSection options index = some layout ∧
      expandSections options rest (before.applyLayout index layout) = some (final, more) := by
  rw [expandSections] at expanded
  simp only [Option.bind_eq_bind, Option.bind_eq_some_iff, Option.some.injEq] at expanded
  obtain ⟨layout, laidOut, ⟨last, more⟩, expanded, same⟩ := expanded
  cases same
  refine ⟨layout, more, rfl, laidOut, ?_⟩
  split at expanded
  case isTrue noFields =>
    rwa [layoutSection_none noFields laidOut, applyLayout_none (List.isEmpty_iff.mp noFields)]
  case isFalse => exact expanded

theorem expandSections_expanded {indices : List ℕ} {before final : Assembler}
    {layouts : List Layout} (distinct : indices.Nodup)
    (expanded : expandSections options indices before = some (final, layouts)) :
    ∃ layoutOf, layouts = indices.map layoutOf ∧ Expanded before final layoutOf indices := by
  induction indices generalizing before layouts with
  | nil =>
    cases expanded
    refine ⟨fun _ => {}, rfl, ?_, ?_, fun _ _ => rfl, ?_, fun _ _ => rfl⟩
    · intro index member
      cases member
    · intro index member
      cases member
    · intro id member
      cases member
  | cons index rest induction =>
    obtain ⟨layout, more, rfl, laidOut, expanded⟩ := expandSections_cons expanded
    obtain ⟨first, distinct⟩ := nodup_cons.mp distinct
    obtain ⟨layoutOf, isMap, onRest⟩ := induction distinct expanded
    have other : ∀ entry ∈ rest, entry ≠ index := by
      intro entry member isIndex
      exact first (isIndex ▸ member)
    have sections : ∀ entry, (before.applyLayout index layout).sections[entry]? =
        (before.sections[entry]?).map fun part =>
          if entry = index then expandPart layout part else part := by
      intro entry
      rw [applyLayout]
      dsimp only
      rw [getElem?_modify]
      by_cases isIndex : index = entry
      · simp [isIndex]
      · simp [isIndex, Ne.symm isIndex]
    have untouched : ∀ entry, entry ≠ index →
        (before.applyLayout index layout).sections[entry]? = before.sections[entry]? := by
      intro entry differs
      rw [sections]
      simp [differs]
    refine ⟨update layoutOf index layout, ?_, ?_, ?_, ?_, ?_, ?_⟩
    · rw [map_cons, update_self, isMap]
      congr 1
      apply map_congr_left
      intro entry member
      rw [update_of_ne (other entry member)]
    · intro entry member
      rcases mem_cons.mp member with rfl | inRest
      · rw [update_self]
        exact layoutSection_fits laidOut
      · have fits := onRest.fits entry inRest
        rw [getD_eq_getElem?_getD, untouched entry (other entry inRest),
          ← getD_eq_getElem?_getD] at fits
        rwa [update_of_ne (other entry inRest)]
    · intro entry member
      rcases mem_cons.mp member with rfl | inRest
      · rw [onRest.outside entry first, sections, update_self]
        simp
      · rw [onRest.inside entry inRest, untouched entry (other entry inRest),
          update_of_ne (other entry inRest)]
    · intro entry notMember
      rw [mem_cons, not_or] at notMember
      rw [onRest.outside entry notMember.2, untouched entry notMember.1]
    · intro id member
      have isMoved := sym_applyLayout before index layout id
      by_cases isIndex : (before.sym id).sectionIndex = index
      · rw [isIndex, update_self]
        rw [onRest.stays id (by rw [isMoved, moveSymbol_section, isIndex]; exact first), isMoved]
      · have inRest : (before.sym id).sectionIndex ∈ rest := by
          rcases mem_cons.mp member with same | inRest
          · exact absurd same isIndex
          · exact inRest
        have unmoved : (before.applyLayout index layout).sym id = before.sym id := by
          rw [isMoved, moveSymbol_other isIndex]
        have moves := onRest.moves id
        rw [unmoved] at moves
        rw [update_of_ne isIndex, moves inRest]
    · intro id notMember
      rw [mem_cons, not_or] at notMember
      have unmoved : (before.applyLayout index layout).sym id = before.sym id := by
        rw [sym_applyLayout, moveSymbol_other notMember.1]
      have stays := onRest.stays id
      rw [unmoved] at stays
      exact stays notMember.2

end Assembler

section Runs

variable {assembler final : Assembler} {ledger : Ledger} {layouts : List Layout}
  {layoutOf : ℕ → Layout}

/-- A point that holds, with its layout. -/
theorem Point.Holds.expanded {point : Point} (holds : point.Holds assembler.sections)
    (isMap : layouts = (range assembler.sections.length).map layoutOf)
    (onAll : Expanded assembler final layoutOf (range assembler.sections.length)) :
    point.sectionIndex ∈ range assembler.sections.length ∧ point.Starts final layouts ∧
      ∀ addend, moved (layoutOf point.sectionIndex).fields (point.raw + addend)
        point.part.deferred.length = point.offset layouts + addend := by
  obtain ⟨later, isLater, extended⟩ := holds.grows
  have member : point.sectionIndex ∈ range assembler.sections.length :=
    mem_range.mpr (List.getElem?_eq_some_iff.mp isLater).1
  have isLayout : layouts.getD point.sectionIndex {} = layoutOf point.sectionIndex := by
    rw [isMap, getD_eq_getElem?_getD, getElem?_map, getElem?_range (mem_range.mp member)]
    rfl
  have fits := onAll.fits _ member
  rw [getD_eq_getElem?_getD, isLater] at fits
  refine ⟨member, ?_, fun addend => ?_⟩
  · rw [Point.Starts, Point.preceding, isLayout, getD_eq_getElem?_getD,
      onAll.inside _ member, isLater]
    exact precedingIn_prefix holds.ok extended fits
  · rw [Point.offset, Point.preceding, isLayout]
    exact moved_raw holds.ok extended fits

theorem moved_zero (fields : List DeferredField) (offset : Word64) : moved fields offset 0 = offset := by
  rw [moved, sizesBefore]
  simp

/-- Raw differences are final differences where the same fields precede. -/
theorem offset_sub_offset {pos neg : Point} {constant posAddend negAddend : Word64}
    (sameFields : pos.part.deferred.length = neg.part.deferred.length)
    (posFinal : ∀ addend, moved fields (pos.raw + addend) pos.part.deferred.length =
      pos.offset layouts + addend)
    (negFinal : ∀ addend, moved fields (neg.raw + addend) neg.part.deferred.length =
      neg.offset layouts + addend) :
    constant + (pos.raw + posAddend) - (neg.raw + negAddend) =
      constant + (pos.offset layouts + posAddend) - (neg.offset layouts + negAddend) := by
  rw [← posFinal, ← negFinal, moved, moved, sameFields]
  generalize BitVec.ofNat 64 (sizesBefore fields (min neg.part.deferred.length fields.length)) =
    shift
  generalize pos.raw + posAddend = left
  generalize neg.raw + negAddend = right
  bv_omega

/-- In every run whose statements meet the condition, positions are final. -/
theorem run_final {options : AsmOptions} {actions : List Action}
    (ran : runActions options actions (Assembler.start options) {} = some (assembler, ledger))
    (meets : meetsAll options actions (Assembler.start options) = true)
    (expanded : expandSections options (range assembler.sections.length) assembler =
      some (final, layouts)) : Final ledger final layouts := by
  have tracks := (Tracks.start options).run meets ran
  obtain ⟨layoutOf, isMap, onAll⟩ := expandSections_expanded nodup_range expanded
  have state : ∀ id, (final.sym id).state = (assembler.sym id).state := by
    intro id
    by_cases member : (assembler.sym id).sectionIndex ∈ range assembler.sections.length
    · rw [onAll.moves id member, moveSymbol]
      split
      · rfl
      · rfl
    · rw [onAll.stays id member]
  refine ⟨?_, ?_, ?_, ?_⟩
  · intro id isLabel
    rw [state] at isLabel
    exact (tracks.symbols id).of_label isLabel
  · intro id point addend isPlace
    have matched := tracks.symbols id
    rw [isPlace] at matched
    obtain ⟨isLabel, inSection, offset, seq, -, holds⟩ := matched
    obtain ⟨member, starts, isMoved⟩ := holds.expanded isMap onAll
    have moves := onAll.moves id (by rw [inSection]; exact member)
    rw [moveSymbol, if_pos ⟨isLabel, rfl⟩] at moves
    refine ⟨by rw [state, isLabel], by rw [moves, inSection], starts, ?_⟩
    rw [moves, ← isMoved addend, ← offset, ← seq, inSection]
  · intro id constant pos posAddend neg negAddend isPlace
    have matched := tracks.symbols id
    rw [isPlace] at matched
    obtain ⟨isConstant, value, -, sameFields, sameSection, posHolds, negHolds⟩ := matched
    obtain ⟨-, posStarts, posFinal⟩ := posHolds.expanded isMap onAll
    obtain ⟨-, negStarts, negFinal⟩ := negHolds.expanded isMap onAll
    have sameValue : (final.sym id).value = (assembler.sym id).value := by
      by_cases member : (assembler.sym id).sectionIndex ∈ range assembler.sections.length
      · rw [onAll.moves id member, moveSymbol, if_neg (by simp [isConstant])]
      · rw [onAll.stays id member]
    refine ⟨by rw [state, isConstant], posStarts, negStarts, ?_⟩
    rw [sameValue, value]
    rw [sameSection] at posFinal
    exact offset_sub_offset sameFields posFinal negFinal
  · intro entry member
    obtain ⟨holds, noFields, raw⟩ := tracks.counters entry member
    obtain ⟨-, starts, isMoved⟩ := holds.expanded isMap onAll
    have unmoved := isMoved 0#64
    rw [noFields, length_nil, moved_zero, BitVec.add_zero, BitVec.add_zero, raw] at unmoved
    exact ⟨starts, unmoved.symm⟩

end Runs

/-- A field whose value is the distance of two labels, with a label behind it. -/
def labelBehindField : List Action :=
  [.label "a", .bytes [0], .label "b", .leb false ⟨0, some 1, some 0⟩, .label "c"]

theorem labelBehindField_final :
    ∃ assembler ledger final layouts,
      runActions {} labelBehindField (Assembler.start {}) {} = some (assembler, ledger) ∧
      meetsAll {} labelBehindField (Assembler.start {}) = true ∧
      expandSections {} (range assembler.sections.length) assembler = some (final, layouts) ∧
      Final ledger final layouts ∧ (final.sym 2).offset = 2 := by
  have meets : meetsAll {} labelBehindField (Assembler.start {}) = true := by decide
  exact ⟨_, _, _, _, rfl, meets, rfl, run_final rfl meets rfl, by decide⟩

/-- The same with the location counter in place of the label. -/
def hereBehindField : List Action :=
  [.label "a", .bytes [0], .label "b", .leb false ⟨0, some 1, some 0⟩, .here]

theorem hereBehindField_not_final :
    ¬ ∀ options actions assembler ledger final layouts,
      runActions options actions (Assembler.start options) {} = some (assembler, ledger) →
      expandSections options (range assembler.sections.length) assembler =
        some (final, layouts) →
      Final ledger final layouts := by
  intro all
  have isFinal := all {} hereBehindField _ _ _ _ rfl rfl
  have position := (isFinal.points 2 _ _ rfl).2.2.2
  revert position
  decide

end Aburi.Asm
