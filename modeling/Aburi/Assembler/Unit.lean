import Aburi.Lib.Leb128

/-!
# The assembler's unit

Sections, symbols and variable-size fields as the statements of a source build
them up.  An operation that reports an error gives `none`: a source with an
error is not accepted, whatever the later statements do.
-/

namespace Aburi.Asm

open Aburi.Lib

abbrev SymId := ℕ

abbrev Word64 := BitVec 64

inductive SymState where
  | undefined
  | label
  | constant
  deriving DecidableEq

structure AsmSymbol where
  name : String := ""
  state : SymState := .undefined
  sectionIndex : ℕ := 0
  offset : Word64 := 0
  deferredSeq : ℕ := 0
  value : Word64 := 0
  fromSet : Bool := false
  internal : Bool := false
  deriving DecidableEq, Inhabited

/-- The value of an expression: at most one symbol added and one subtracted. -/
structure ExprValue where
  constant : Word64 := 0
  posSym : Option SymId := none
  negSym : Option SymId := none
  deriving DecidableEq

def ExprValue.isAbsolute (value : ExprValue) : Bool :=
  value.posSym.isNone && value.negSym.isNone

inductive FixupKind where
  | abs8
  | abs16
  | abs32
  | abs64
  | branch26
  | branch19
  | page21
  | pageOff12
  | branch32
  | pcRel32
  | gotDelta32
  deriving DecidableEq

def fixupWidthBytes : FixupKind → ℕ
  | .abs8 => 1
  | .abs16 => 2
  | .abs32 => 4
  | .abs64 => 8
  | _ => 4

structure PendingFixup where
  offset : Word64
  kind : FixupKind
  constant : Word64
  posSym : Option SymId
  negSym : Option SymId
  deferredSeq : ℕ
  deriving DecidableEq

inductive DeferredKind where
  | uleb
  | sleb
  | align
  | branch
  deriving DecidableEq

structure DeferredBranch where
  shortOpcode : UInt8 := 0
  nearBytes : List UInt8 := []
  relOffset : ℕ := 0
  patchable : Bool := false
  deriving DecidableEq

structure DeferredField where
  kind : DeferredKind
  rawOffset : ℕ
  constant : Word64 := 0
  posSym : Option SymId := none
  negSym : Option SymId := none
  alignLog2 : ℕ := 0
  fill : UInt8 := 0
  nopFill : Bool := false
  branch : DeferredBranch := {}
  size : ℕ := 0
  deriving DecidableEq

structure RelocRecord where
  offset : Word64
  kind : FixupKind
  symbol : SymId
  deriving DecidableEq

structure UnresolvedFixup where
  offset : Word64
  kind : FixupKind
  symbol : SymId
  addend : Word64
  deriving DecidableEq

structure AsmSection where
  segname : String := ""
  sectname : String := ""
  flags : BitVec 32 := 0
  alignLog2 : ℕ := 0
  zerofill : Bool := false
  zerofillSize : ℕ := 0
  bytes : List UInt8 := []
  fixups : List PendingFixup := []
  relocs : List RelocRecord := []
  unresolved : List UnresolvedFixup := []
  deferred : List DeferredField := []
  deriving DecidableEq, Inhabited

def AsmSection.size (part : AsmSection) : ℕ :=
  if part.zerofill then part.zerofillSize else part.bytes.length

structure LocalLabelState where
  lastDef : Option SymId := none
  pendingForward : List SymId := []
  deriving DecidableEq, Inhabited

/-- What the target decides. -/
structure AsmOptions where
  elf : Bool := false
  x86 : Bool := true
  fragmentMode : Bool := false
  deriving DecidableEq

structure Assembler where
  sections : List AsmSection
  symbols : List AsmSymbol := []
  currentSection : ℕ := 0
  localLabels : List (ℕ × LocalLabelState) := []
  deriving DecidableEq

/-- The unit before the first statement. -/
def Assembler.start (options : AsmOptions) : Assembler :=
  { sections :=
      [if options.elf then { sectname := ".text" }
        else { segname := "__TEXT", sectname := "__text", flags := 0x80000000 ||| 0x00000400 }] }

def sectionIsCode (part : AsmSection) : Bool :=
  if part.segname ≠ "" then part.flags &&& (0x80000000 ||| 0x00000400) != 0
  else ".text".toList.isPrefixOf part.sectname.toList

def fitsWidth (value : ℤ) (widthBytes : ℕ) : Bool :=
  if 8 ≤ widthBytes then true
  else decide (-(2 ^ (widthBytes * 8 - 1)) ≤ value) && decide (value ≤ 2 ^ (widthBytes * 8) - 1)

/-- The bytes of a number, lowest first. -/
def littleEndian (width : ℕ) (value : Word64) : List UInt8 :=
  (List.range width).map fun index => UInt8.ofNat ((value >>> (8 * index)).toNat % 256)

def nops : List (List UInt8) :=
  [[0x90], [0x66, 0x90], [0x0F, 0x1F, 0x00], [0x0F, 0x1F, 0x40, 0x00],
    [0x0F, 0x1F, 0x44, 0x00, 0x00], [0x66, 0x0F, 0x1F, 0x44, 0x00, 0x00],
    [0x0F, 0x1F, 0x80, 0x00, 0x00, 0x00, 0x00],
    [0x0F, 0x1F, 0x84, 0x00, 0x00, 0x00, 0x00, 0x00],
    [0x66, 0x0F, 0x1F, 0x84, 0x00, 0x00, 0x00, 0x00, 0x00],
    [0x66, 0x2E, 0x0F, 0x1F, 0x84, 0x00, 0x00, 0x00, 0x00, 0x00]]

def nopLoop : ℕ → ℕ → List UInt8
  | 0, _ => []
  | fuel + 1, count =>
    if count = 0 then []
    else
      let length := if 10 < count then 10 else count
      nops.getD (length - 1) [] ++ nopLoop fuel (count - length)

def nopPadding (count : ℕ) : List UInt8 := nopLoop count count

def alignUp (size alignLog2 : ℕ) : ℕ := (size + 2 ^ alignLog2 - 1) / 2 ^ alignLog2 * 2 ^ alignLog2

namespace Assembler

def cur (assembler : Assembler) : AsmSection :=
  assembler.sections.getD assembler.currentSection default

def sym (assembler : Assembler) (id : SymId) : AsmSymbol := assembler.symbols.getD id default

def modifyCur (assembler : Assembler) (update : AsmSection → AsmSection) : Assembler :=
  { assembler with sections := assembler.sections.modify assembler.currentSection update }

def setSym (assembler : Assembler) (id : SymId) (symbol : AsmSymbol) : Assembler :=
  { assembler with symbols := assembler.symbols.set id symbol }

def intern (assembler : Assembler) (name : String) : SymId × Assembler :=
  match assembler.symbols.findIdx? fun symbol => !symbol.internal && symbol.name == name with
  | some id => (id, assembler)
  | none =>
    (assembler.symbols.length, { assembler with symbols := assembler.symbols ++ [{ name }] })

def makeInternal (assembler : Assembler) (name : String) : SymId × Assembler :=
  (assembler.symbols.length,
    { assembler with symbols := assembler.symbols ++ [{ name, internal := true }] })

def bindSymbolToLocation (assembler : Assembler) (id : SymId) : Option Assembler :=
  let symbol := assembler.sym id
  if symbol.state ≠ .undefined ∧ symbol.fromSet = false then none
  else
    some (assembler.setSym id
      { symbol with
        state := .label
        fromSet := false
        sectionIndex := assembler.currentSection
        offset := BitVec.ofNat 64 assembler.cur.size
        deferredSeq := assembler.cur.deferred.length })

def applySet (assembler : Assembler) (id : SymId) (value : ExprValue) : Option Assembler :=
  let symbol := assembler.sym id
  if symbol.state ≠ .undefined ∧ symbol.fromSet = false then none
  else
    match value.negSym, value.posSym with
    | some _, none => none
    | some neg, some pos =>
      let neg := assembler.sym neg
      let pos := assembler.sym pos
      if pos.state ≠ .label ∨ neg.state ≠ .label ∨ pos.sectionIndex ≠ neg.sectionIndex then none
      else
        some (assembler.setSym id
          { symbol with
            state := .constant
            fromSet := true
            value := value.constant + pos.offset - neg.offset })
    | none, some target =>
      let target := assembler.sym target
      if target.state ≠ .label then none
      else
        some (assembler.setSym id
          { symbol with
            state := .label
            fromSet := true
            sectionIndex := target.sectionIndex
            offset := target.offset + value.constant })
    | none, none =>
      some (assembler.setSym id
        { symbol with state := .constant, fromSet := true, value := value.constant })

def exprHere (assembler : Assembler) : SymId × Assembler :=
  let (id, assembler) := assembler.makeInternal "."
  (id, assembler.setSym id
    { assembler.sym id with
      state := .label
      sectionIndex := assembler.currentSection
      offset := BitVec.ofNat 64 assembler.cur.size })

def localLabel (assembler : Assembler) (number : ℕ) : LocalLabelState :=
  (assembler.localLabels.lookup number).getD {}

def setLocalLabel (assembler : Assembler) (number : ℕ) (state : LocalLabelState) : Assembler :=
  { assembler with localLabels := (number, state) :: assembler.localLabels }

def exprLocalRef (assembler : Assembler) (number : ℕ) (backward : Bool) : Option Assembler :=
  let state := assembler.localLabel number
  if backward then
    if state.lastDef.isNone then none else some assembler
  else
    let (id, assembler) := assembler.makeInternal (toString number ++ "f")
    some (assembler.setLocalLabel number
      { state with pendingForward := state.pendingForward ++ [id] })

def defineLabel (assembler : Assembler) (name : String) : Option Assembler :=
  let (id, assembler) := assembler.intern name
  assembler.bindSymbolToLocation id

/-- Binds the label and the references that waited for it. -/
def defineLocalLabel (assembler : Assembler) (number : ℕ) : Option Assembler := do
  let state := assembler.localLabel number
  let (id, assembler) := assembler.makeInternal (toString number ++ ":")
  let assembler ← (id :: state.pendingForward).foldlM bindSymbolToLocation assembler
  some (assembler.setLocalLabel number { lastDef := some id })

def assign (assembler : Assembler) (name : String) (value : ExprValue) : Option Assembler :=
  let (id, assembler) := assembler.intern name
  assembler.applySet id value

def equiv (assembler : Assembler) (name : String) (value : ExprValue) : Option Assembler :=
  let (id, assembler) := assembler.intern name
  if (assembler.sym id).state ≠ .undefined then none else assembler.applySet id value

def findOrAddSection (assembler : Assembler) (segname sectname : String) (flags : BitVec 32)
    (zerofill : Bool) : ℕ × Assembler :=
  match assembler.sections.findIdx? fun part =>
      part.segname == segname && part.sectname == sectname with
  | some index => (index, assembler)
  | none =>
    (assembler.sections.length,
      { assembler with
        sections := assembler.sections ++ [{ segname, sectname, flags, zerofill }] })

def switchSection (assembler : Assembler) (segname sectname : String) (flags : BitVec 32)
    (zerofill : Bool) : Assembler :=
  let (index, assembler) := assembler.findOrAddSection segname sectname flags zerofill
  { assembler with currentSection := index }

/-- Appends to a section that holds data. -/
def appendBytes (assembler : Assembler) (data : List UInt8) : Option Assembler :=
  if assembler.cur.zerofill then none
  else some (assembler.modifyCur fun part => { part with bytes := part.bytes ++ data })

def pushDeferred (assembler : Assembler) (field : DeferredField) : Assembler :=
  assembler.modifyCur fun part => { part with deferred := part.deferred ++ [field] }

def alignCurrent (options : AsmOptions) (assembler : Assembler) (alignLog2 : ℕ) (fill : UInt8)
    (fillGiven : Bool) (maxBytes : Option ℕ) : Option Assembler :=
  if 30 < alignLog2 then none
  else
    let assembler := assembler.modifyCur fun part =>
      { part with alignLog2 := max part.alignLog2 alignLog2 }
    let part := assembler.cur
    let nopFill := !fillGiven && sectionIsCode part && options.x86
    if !part.zerofill && !part.deferred.isEmpty then
      if maxBytes.isSome then none
      else
        some (assembler.pushDeferred
          { kind := .align, rawOffset := part.bytes.length, alignLog2, fill, nopFill })
    else
      let aligned := alignUp part.size alignLog2
      if maxBytes.any fun limit => decide (limit < aligned - part.size) then some assembler
      else if part.zerofill then
        some (assembler.modifyCur fun part => { part with zerofillSize := aligned % 2 ^ 64 })
      else
        let count := aligned - part.bytes.length
        let padding := if nopFill then nopPadding count else List.replicate count fill
        some (assembler.modifyCur fun part => { part with bytes := part.bytes ++ padding })

def appendLeb (assembler : Assembler) (isSigned : Bool) (value : ExprValue) :
    Option Assembler :=
  if assembler.cur.zerofill then none
  else if value.isAbsolute then
    assembler.appendBytes
      (if isSigned then sleb value.constant.toInt else uleb value.constant.toNat)
  else
    some (assembler.pushDeferred
      { kind := if isSigned then .sleb else .uleb
        rawOffset := assembler.cur.bytes.length
        constant := value.constant
        posSym := value.posSym
        negSym := value.negSym })

/-- Appends bytes with a field that is filled in when all positions are known. -/
def appendFixup (assembler : Assembler) (data : List UInt8) (fieldOffset : ℕ)
    (kind : FixupKind) (value : ExprValue) : Option Assembler :=
  if assembler.cur.zerofill then none
  else
    let part := assembler.cur
    let fixup : PendingFixup :=
      { offset := BitVec.ofNat 64 (part.bytes.length + fieldOffset)
        kind
        constant := value.constant
        posSym := value.posSym
        negSym := value.negSym
        deferredSeq := part.deferred.length }
    (assembler.modifyCur fun part => { part with fixups := part.fixups ++ [fixup] }).appendBytes
      data

def appendDataValue (assembler : Assembler) (kind : FixupKind) (value : ExprValue) :
    Option Assembler :=
  let width := fixupWidthBytes kind
  if value.isAbsolute then
    if fitsWidth value.constant.toInt width then
      assembler.appendBytes (littleEndian width value.constant)
    else none
  else assembler.appendFixup (List.replicate width 0) 0 kind value

def appendBranch (assembler : Assembler) (nearBytes : List UInt8) (relOffset : ℕ)
    (shortOpcode : UInt8) (target : SymId) (addend : Word64) : Option Assembler :=
  if assembler.cur.zerofill then none
  else if 8 < nearBytes.length then none
  else
    some (assembler.pushDeferred
      { kind := .branch
        rawOffset := assembler.cur.bytes.length
        constant := addend
        posSym := some target
        branch := { shortOpcode, nearBytes, relOffset }
        size := nearBytes.length })

def appendSpace (assembler : Assembler) (size : ℕ) (fill : UInt8) : Option Assembler :=
  if assembler.cur.zerofill then
    if fill ≠ 0 then none
    else
      some (assembler.modifyCur fun part =>
        { part with zerofillSize := (part.zerofillSize + size) % 2 ^ 64 })
  else
    some (assembler.modifyCur fun part =>
      { part with bytes := part.bytes ++ List.replicate size fill })

/-- The offset is compared with the size of the section as it stands. -/
def org (assembler : Assembler) (target : Word64) (fill : UInt8) : Option Assembler :=
  if target.toInt < 0 ∨ target.toNat < assembler.cur.size then none
  else assembler.appendSpace (target.toNat - assembler.cur.size) fill

/-- The unit in a zerofill section, aligned. -/
def enterZerofill (options : AsmOptions) (assembler : Assembler) (segname sectname : String)
    (alignLog2 : ℕ) : Option Assembler :=
  let (index, assembler) := assembler.findOrAddSection segname sectname 0 true
  if !(assembler.sections.getD index default).zerofill then none
  else alignCurrent options { assembler with currentSection := index } alignLog2 0 true none

/-- A symbol with room in a zerofill section. -/
def zerofillSymbol (options : AsmOptions) (assembler : Assembler) (segname sectname name : String)
    (size alignLog2 : ℕ) : Option Assembler := do
  let entered ← enterZerofill options assembler segname sectname alignLog2
  let (id, named) := entered.intern name
  let bound ← named.bindSymbolToLocation id
  let reserved := bound.modifyCur fun part =>
    { part with zerofillSize := (part.zerofillSize + size) % 2 ^ 64 }
  some { reserved with currentSection := assembler.currentSection }

end Assembler

end Aburi.Asm
