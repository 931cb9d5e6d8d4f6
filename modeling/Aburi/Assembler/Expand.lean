import Aburi.Assembler.Unit

/-!
# Expanding variable-size fields

When all statements are read, the sizes of alignment, LEB128 and branch fields
are iterated until nothing changes.  Then the bytes of each field are put where
it stands and the positions that were recorded are moved.
-/

namespace Aburi.Asm

open Aburi.Lib List

def firstLetter (name : String) : Option Char := name.toList.head?

/-- Symbols that the linker takes for the start of an atom. -/
def startsAtom (options : AsmOptions) (symbol : AsmSymbol) : Bool :=
  if options.elf then false
  else if symbol.internal || symbol.name == "" || firstLetter symbol.name == some 'L' then false
  else options.x86 || firstLetter symbol.name != some 'l'

def canBeRelocTarget (options : AsmOptions) (symbol : AsmSymbol) : Bool :=
  if symbol.internal || symbol.name == "" then false
  else if options.elf then !".L".toList.isPrefixOf symbol.name.toList
  else firstLetter symbol.name != some 'L'

def resolvesInPlace (options : AsmOptions) (target : AsmSymbol) (targetId : SymId)
    (targetAtom fixupAtom : Option SymId) : Bool :=
  if options.elf || fixupAtom == some targetId then true
  else if options.x86 then !canBeRelocTarget options target && targetAtom == fixupAtom
  else !startsAtom options target

/-- The order of the places where atoms start. -/
def placeBefore (first second : ℕ × ℕ × SymId) : Bool :=
  decide (first.1 < second.1) || first.1 == second.1 &&
    (decide (first.2.1 < second.2.1) || first.2.1 == second.2.1 && decide (first.2.2 ≤ second.2.2))

namespace Assembler

/-- Atoms of a section with their raw places. -/
def rawAtoms (options : AsmOptions) (assembler : Assembler) (sectionIndex : ℕ) :
    List (ℕ × ℕ × SymId) :=
  let labels := (range assembler.symbols.length).filter fun id =>
    (assembler.sym id).state == .label && (assembler.sym id).sectionIndex == sectionIndex &&
      startsAtom options (assembler.sym id)
  (labels.map fun id =>
    ((assembler.sym id).offset.toNat, (assembler.sym id).deferredSeq, id)).mergeSort placeBefore

/-- The last atom that starts at or before a raw place. -/
def enclosingAtom (atoms : List (ℕ × ℕ × SymId)) (offset : Word64) (seq : ℕ) : Option SymId :=
  let before := atoms.takeWhile fun atom =>
    !(decide (offset.toNat < atom.1) || atom.1 == offset.toNat && decide (seq < atom.2.1))
  before.getLast?.map fun atom => atom.2.2

/-- Branches that can be patched in place start with their short form. -/
def startField (options : AsmOptions) (assembler : Assembler) (sectionIndex : ℕ)
    (atoms : List (ℕ × ℕ × SymId)) (index : ℕ) (field : DeferredField) : DeferredField :=
  if field.kind ≠ .branch then field
  else
    let targetId := field.posSym.getD 0
    let target := assembler.sym targetId
    let patchable := target.state == .label && target.sectionIndex == sectionIndex &&
      resolvesInPlace options target targetId
        (enclosingAtom atoms target.offset target.deferredSeq)
        (enclosingAtom atoms (BitVec.ofNat 64 field.rawOffset) index)
    { field with
      branch := { field.branch with patchable }
      size := if patchable && field.branch.shortOpcode != 0 then 2
        else field.branch.nearBytes.length }

/-- The bytes that the first fields take. -/
def sizesBefore (fields : List DeferredField) (count : ℕ) : ℕ :=
  ((fields.take count).map DeferredField.size).sum

/-- Where a symbol ends up with the current sizes, and its section. -/
def symbolFinal (assembler : Assembler) (sectionIndex : ℕ) (fields : List DeferredField)
    (id : SymId) : Option (Word64 × Option ℕ) :=
  let symbol := assembler.sym id
  match symbol.state with
  | .constant => some (symbol.value, none)
  | .undefined => none
  | .label =>
    if symbol.sectionIndex = sectionIndex then
      let seq := min symbol.deferredSeq fields.length
      some (symbol.offset + BitVec.ofNat 64 (sizesBefore fields seq), some symbol.sectionIndex)
    else if (assembler.sections.getD symbol.sectionIndex default).deferred.isEmpty then
      some (symbol.offset, some symbol.sectionIndex)
    else none

def symbolPart (assembler : Assembler) (sectionIndex : ℕ) (fields : List DeferredField) :
    Option SymId → Option (Word64 × Option ℕ)
  | none => some (0, none)
  | some id => assembler.symbolFinal sectionIndex fields id

def lebValue (assembler : Assembler) (sectionIndex : ℕ) (fields : List DeferredField)
    (field : DeferredField) : Option Word64 := do
  let (pos, posSection) ← assembler.symbolPart sectionIndex fields field.posSym
  let (neg, negSection) ← assembler.symbolPart sectionIndex fields field.negSym
  if posSection ≠ negSection then none else some (field.constant + pos - neg)

def lebBytes (kind : DeferredKind) (value : Word64) : List UInt8 :=
  if kind = .sleb then sleb value.toInt else uleb value.toNat

/-- The distance of a branch whose encoding ends at a place. -/
def branchDelta (target constant : Word64) (finish : ℕ) : Word64 :=
  target + constant - BitVec.ofNat 64 finish

def newSize (assembler : Assembler) (sectionIndex : ℕ) (fields : List DeferredField)
    (index : ℕ) (field : DeferredField) : Option ℕ :=
  let place := field.rawOffset + sizesBefore fields index
  match field.kind with
  | .align =>
    let alignment := 2 ^ field.alignLog2
    some ((alignment - place % alignment) % alignment)
  | .branch =>
    let near := field.branch.nearBytes.length
    if near ≤ field.size then some near
    else
      match assembler.symbolFinal sectionIndex fields (field.posSym.getD 0) with
      | none => some near
      | some (target, _) =>
        let delta := (branchDelta target field.constant (place + 2)).toInt
        some (if -128 ≤ delta ∧ delta ≤ 127 then 2 else near)
  | .uleb | .sleb =>
    (assembler.lebValue sectionIndex fields field).map fun value =>
      (lebBytes field.kind value).length

/-- One round over the fields with the sizes that it starts from. -/
def newSizes (assembler : Assembler) (sectionIndex : ℕ) (fields : List DeferredField) :
    Option (List ℕ) :=
  (range fields.length).mapM fun index =>
    (fields[index]?).bind fun field => assembler.newSize sectionIndex fields index field

def withSizes (fields : List DeferredField) (sizes : List ℕ) : List DeferredField :=
  zipWith (fun field size => { field with size }) fields sizes

/-- Rounds until nothing changes. -/
def relax (assembler : Assembler) (sectionIndex : ℕ) :
    ℕ → List DeferredField → Option (List DeferredField)
  | 0, _ => none
  | limit + 1, fields =>
    (assembler.newSizes sectionIndex fields).bind fun sizes =>
      if sizes = fields.map DeferredField.size then some fields
      else assembler.relax sectionIndex limit (withSizes fields sizes)

/-- The near form with its distance filled in. -/
def nearForm (branch : DeferredBranch) (distance : Word64) : List UInt8 :=
  branch.nearBytes.take branch.relOffset ++
    (littleEndian 4 distance).take (branch.nearBytes.length - branch.relOffset) ++
    branch.nearBytes.drop (branch.relOffset + 4)

/-- What a field puts into the section: its bytes, and for a branch out of the
atom a relocation or an open reference. -/
structure Expansion where
  bytes : List UInt8
  relocs : List RelocRecord := []
  unresolved : List UnresolvedFixup := []

def expandBranch (options : AsmOptions) (assembler : Assembler) (sectionIndex : ℕ)
    (atoms : List (ℕ × ℕ × SymId)) (fields : List DeferredField) (index : ℕ)
    (field : DeferredField) : Option Expansion :=
  let place := field.rawOffset + sizesBefore fields index
  let targetId := field.posSym.getD 0
  let target := assembler.sym targetId
  let position := (assembler.symbolFinal sectionIndex fields targetId).map Prod.fst
  if field.branch.patchable then
    let delta := branchDelta (position.getD 0) field.constant (place + field.size)
    if field.size = 2 then
      some { bytes := [field.branch.shortOpcode, UInt8.ofNat (delta.toNat % 256)] }
    else some { bytes := nearForm field.branch delta }
  else
    let offset := BitVec.ofNat 64 (place + field.branch.relOffset)
    if options.fragmentMode && target.state == .undefined then
      some
        { bytes := nearForm field.branch field.constant
          unresolved := [{ offset, kind := .branch32, symbol := targetId, addend := field.constant }] }
    else if target.state = .undefined ∧ target.internal then none
    else if target.state = .constant then none
    else if target.state = .label ∧ !canBeRelocTarget options target then
      match enclosingAtom atoms target.offset target.deferredSeq with
      | none => none
      | some atom =>
        match position, assembler.symbolFinal sectionIndex fields atom with
        | some label, some (atomPosition, _) =>
          some
            { bytes := nearForm field.branch (field.constant + label - atomPosition)
              relocs := [{ offset, kind := .branch32, symbol := atom }] }
        | _, _ => none
    else
      some
        { bytes := nearForm field.branch field.constant
          relocs := [{ offset, kind := .branch32, symbol := targetId }] }

def expandField (options : AsmOptions) (assembler : Assembler) (sectionIndex : ℕ)
    (atoms : List (ℕ × ℕ × SymId)) (fields : List DeferredField) (index : ℕ)
    (field : DeferredField) : Option Expansion :=
  match field.kind with
  | .align =>
    some
      { bytes := if field.nopFill then nopPadding field.size
          else replicate field.size field.fill }
  | .branch => expandBranch options assembler sectionIndex atoms fields index field
  | .uleb | .sleb =>
    (assembler.lebValue sectionIndex fields field).map fun value =>
      { bytes := lebBytes field.kind value }

/-- Raw bytes with the bytes of each field where it stands. -/
def interleave (bytes : List UInt8) (cursor : ℕ) :
    List DeferredField → List (List UInt8) → List UInt8
  | field :: fields, chunk :: chunks =>
    (bytes.drop cursor).take (field.rawOffset - cursor) ++ chunk ++
      interleave bytes field.rawOffset fields chunks
  | _, _ => bytes.drop cursor

/-- A position recorded with the number of fields before it. -/
def moved (fields : List DeferredField) (offset : Word64) (seq : ℕ) : Word64 :=
  offset + BitVec.ofNat 64 (sizesBefore fields (min seq fields.length))

/-- The fields of a section with their final sizes and what they put into it. -/
structure Layout where
  fields : List DeferredField := []
  expansions : List Expansion := []

def Layout.chunks (layout : Layout) : List (List UInt8) :=
  layout.expansions.map Expansion.bytes

def layoutSection (options : AsmOptions) (assembler : Assembler) (sectionIndex : ℕ) :
    Option Layout :=
  let part := assembler.sections.getD sectionIndex default
  if part.deferred.isEmpty then some {}
  else do
    let atoms := assembler.rawAtoms options sectionIndex
    let started := part.deferred.mapIdx
      (startField options assembler sectionIndex atoms)
    let fields ← assembler.relax sectionIndex (started.length * 2 + 8) started
    let expansions ← (range fields.length).mapM fun index =>
      (fields[index]?).bind fun field =>
        expandField options assembler sectionIndex atoms fields index field
    some { fields, expansions }

def expandPart (layout : Layout) (part : AsmSection) : AsmSection :=
  { part with
    bytes := interleave part.bytes 0 layout.fields layout.chunks
    fixups := part.fixups.map fun fixup =>
      { fixup with offset := moved layout.fields fixup.offset fixup.deferredSeq }
    relocs := part.relocs ++ layout.expansions.flatMap Expansion.relocs
    unresolved := part.unresolved ++ layout.expansions.flatMap Expansion.unresolved
    deferred := [] }

def moveSymbol (sectionIndex : ℕ) (layout : Layout) (symbol : AsmSymbol) : AsmSymbol :=
  if symbol.state = .label ∧ symbol.sectionIndex = sectionIndex then
    { symbol with offset := moved layout.fields symbol.offset symbol.deferredSeq }
  else symbol

def applyLayout (assembler : Assembler) (sectionIndex : ℕ) (layout : Layout) : Assembler :=
  { assembler with
    sections := assembler.sections.modify sectionIndex (expandPart layout)
    symbols := assembler.symbols.map (moveSymbol sectionIndex layout) }

/-- Sections are expanded one after the other; a section without fields stays
as it is.  The layouts are kept beside the unit. -/
def expandSections (options : AsmOptions) :
    List ℕ → Assembler → Option (Assembler × List Layout)
  | [], assembler => some (assembler, [])
  | index :: rest, assembler => do
      let layout ← assembler.layoutSection options index
      let (final, layouts) ← expandSections options rest
        (if (assembler.sections.getD index default).deferred.isEmpty then assembler
          else assembler.applyLayout index layout)
      some (final, layout :: layouts)

def expandDeferredFields (options : AsmOptions) (assembler : Assembler) : Option Assembler :=
  (expandSections options (range assembler.sections.length) assembler).map Prod.fst

end Assembler

end Aburi.Asm
