import Aburi.Backend.EhMetadata
import Aburi.Lib.Leb128
import Mathlib.Algebra.BigOperators.Group.List.Basic
import Mathlib.Algebra.Ring.Nat

/-!
# Language-specific data areas

`emit_lsda` writes the exception table of a function: call sites sorted and with
gaps filled, actions chained backwards, typeinfos indexed from the end of their
table.  The reader follows the rules of the C++ personality routine.
-/

namespace Aburi.Backend.Eh

open Aburi.Lib

/-- A call between its two labels, and the block that it unwinds to. -/
structure Invoke where
  beginLabel : ℕ
  endLabel : ℕ
  unwind : ℕ
  size : ℕ
  deriving DecidableEq

/-- Emitted code in the order of its addresses. -/
inductive Piece where
  | code (size : ℕ)
  | invoke (call : Invoke)
  deriving DecidableEq

def Piece.size : Piece → ℕ
  | .code size => size
  | .invoke call => call.size

def codeSize (pieces : List Piece) : ℕ := (pieces.map Piece.size).sum

/-- Calls with the offsets where they start. -/
def placeInvokes : ℕ → List Piece → List (Invoke × ℕ)
  | _, [] => []
  | offset, .code size :: pieces => placeInvokes (offset + size) pieces
  | offset, .invoke call :: pieces =>
    (call, offset) :: placeInvokes (offset + call.size) pieces

def ehLabelOffsets (placed : List (Invoke × ℕ)) : List (ℕ × ℕ) :=
  placed.flatMap fun (invoke, offset) =>
    [(invoke.beginLabel, offset), (invoke.endLabel, offset + invoke.size)]

def blockOffset (start : ℕ) (blocks : List (List Piece)) (index : ℕ) : Option ℕ :=
  if index < blocks.length then some (start + codeSize (blocks.take index).flatten) else none

structure MEhCallSite where
  beginLabel : ℕ
  endLabel : ℕ
  landingPadBlock : ℕ
  actionLabel : ℕ
  deriving DecidableEq

/-- A function as it reaches the emitter: its blocks in order, its landing pads,
and its calls in the order in which they were selected.  What instruction
selection and the verifier guarantee are fields. -/
structure EhFunction where
  mod : EhModule
  pads : List LandingPad
  start : ℕ
  blocks : List (List Piece)
  selected : List Invoke
  placed : selected.Perm ((placeInvokes start blocks.flatten).map Prod.fst)
  sized : ∀ invoke ∈ selected, 0 < invoke.size
  labels : (selected.flatMap fun invoke => [invoke.beginLabel, invoke.endLabel]).Nodup
  padded : ∀ invoke ∈ selected, invoke.unwind ≠ 0 ∧ invoke.unwind < blocks.length ∧
    invoke.unwind ∈ pads.map LandingPad.block
  onePad : (pads.map LandingPad.block).Nodup
  clauses : ∀ pad ∈ pads,
    (mod.ehLandingPadPayload pad.payload).isCleanup = true ∨
      (mod.ehLandingPadPayload pad.payload).hasCatchAll = true ∨
      (mod.ehLandingPadPayload pad.payload).clauseTypeinfos ≠ []
  prologue : 0 < codeSize (blocks.take 1).flatten
  named : ∀ global, mod.targetSymbolName global ≠ ""

namespace EhFunction

def stream (function : EhFunction) : List Piece := function.blocks.flatten

def functionEnd (function : EhFunction) : ℕ := function.start + codeSize function.stream

def invokes (function : EhFunction) : List (Invoke × ℕ) :=
  placeInvokes function.start function.stream

def ehCallSites (function : EhFunction) (actions : EhActions) : List MEhCallSite :=
  function.selected.map fun invoke =>
    { beginLabel := invoke.beginLabel
      endLabel := invoke.endLabel
      landingPadBlock := invoke.unwind
      actionLabel := actions.actionForBlock invoke.unwind }

end EhFunction

inductive ObjectFormat where
  | elf
  | machO
  deriving DecidableEq

/-- The action table and the offsets of its records. -/
def emitActions : List MEhAction → List (ℕ × ℕ) → List UInt8 →
    Option (List (ℕ × ℕ) × List UInt8)
  | [], offsets, bytes => some (offsets, bytes)
  | action :: actions, offsets, bytes =>
    let offsets := (action.label, bytes.length) :: offsets
    let bytes := bytes ++ sleb action.filter
    if action.nextLabel ≠ 0 then
      match offsets.lookup action.nextLabel with
      | none => none
      | some found =>
        emitActions actions offsets (bytes ++ sleb ((found : ℤ) - (bytes.length : ℤ)))
    else emitActions actions offsets (bytes ++ sleb 0)

structure ResolvedCallSite where
  beginOffset : ℕ
  endOffset : ℕ
  landingPad : ℕ
  action : ℕ
  deriving DecidableEq

def resolveAction (actionOffsets : List (ℕ × ℕ)) (label : ℕ) : Option ℕ :=
  if label = 0 then some 0 else (actionOffsets.lookup label).map (· + 1)

def resolveSite (format : ObjectFormat) (labelOffsets : List (ℕ × ℕ))
    (blockOffsets : ℕ → Option ℕ) (actionOffsets : List (ℕ × ℕ)) (site : MEhCallSite) :
    Option ResolvedCallSite := do
  let beginOffset ← labelOffsets.lookup site.beginLabel
  let endOffset ← labelOffsets.lookup site.endLabel
  let landingPad ← blockOffsets site.landingPadBlock
  if format = .machO ∧ endOffset < beginOffset then none
  else
    let action ← resolveAction actionOffsets site.actionLabel
    some { beginOffset, endOffset, landingPad, action }

/-- A range of the call-site table; an empty one is left out. -/
def appendRange (beginOffset endOffset landingPad action : ℕ) : List UInt8 :=
  if endOffset ≤ beginOffset then []
  else uleb beginOffset ++ uleb (endOffset - beginOffset) ++ uleb landingPad ++ uleb action

/-- Offsets in the table are relative to the start of the function. -/
def siteTable (start functionEnd : ℕ) : ℕ → List ResolvedCallSite → Option (List UInt8)
  | previous, [] => some (appendRange (previous - start) (functionEnd - start) 0 0)
  | previous, site :: sites =>
    if site.beginOffset < previous then none
    else
      (siteTable start functionEnd site.endOffset sites).map fun rest =>
        appendRange (previous - start) (site.beginOffset - start) 0 0 ++
          (appendRange (site.beginOffset - start) (site.endOffset - start)
            (site.landingPad - start) site.action ++ rest)

def ulebSize (value : ℕ) : ℕ := (uleb value).length

/-- The distance to the end of the type table if it is written in so many
bytes. -/
def ttypeCandidate (tables entries ulebBytes : ℕ) : ℕ :=
  (2 + ulebBytes + 1 + tables + 3) / 4 * 4 + entries * 4 - (2 + ulebBytes)

def ttypeLoop (tables entries : ℕ) : ℕ → ℕ → Option ℕ
  | 0, _ => none
  | fuel + 1, ulebBytes =>
    let candidate := ttypeCandidate tables entries ulebBytes
    if ulebSize candidate = ulebBytes then some candidate
    else ttypeLoop tables entries fuel (ulebSize candidate)

def padTo4 (bytes : List UInt8) : List UInt8 :=
  bytes ++ List.replicate ((4 - bytes.length % 4) % 4) 0

/-- The pointer that an indirect entry refers to. -/
inductive TypeCell where
  | dwRef (symbol : String)
  | got (symbol : String)
  deriving DecidableEq

def TypeCell.symbol : TypeCell → String
  | .dwRef symbol => symbol
  | .got symbol => symbol

structure Lsda where
  bytes : List UInt8
  relocs : List (ℕ × TypeCell)
  deriving DecidableEq

def typeEntry (format : ObjectFormat) (info : MEhTypeInfo) : List UInt8 :=
  if info.symbol = "" then [0, 0, 0, 0]
  else
    match format with
    | .elf => [0, 0, 0, 0]
    | .machO => [4, 0, 0, 0]

def typeCell (format : ObjectFormat) (symbol : String) : TypeCell :=
  match format with
  | .elf => .dwRef symbol
  | .machO => .got symbol

def typeRelocs (format : ObjectFormat) : ℕ → List MEhTypeInfo → List (ℕ × TypeCell)
  | _, [] => []
  | offset, info :: infos =>
    if info.symbol = "" then typeRelocs format (offset + 4) infos
    else (offset, typeCell format info.symbol) :: typeRelocs format (offset + 4) infos

def sortedTypeinfos (infos : List MEhTypeInfo) : List MEhTypeInfo :=
  infos.mergeSort fun first second => decide (second.filter ≤ first.filter)

def sortedSites (sites : List ResolvedCallSite) : List ResolvedCallSite :=
  sites.mergeSort fun first second => decide (first.beginOffset ≤ second.beginOffset)

/-- The tables put together. -/
def assembleLsda (format : ObjectFormat) (ttypeValue : ℕ) (callSites actions : List UInt8)
    (typeinfos : List MEhTypeInfo) : Lsda :=
  let header : List UInt8 :=
    if typeinfos.isEmpty then [255, 255] else [255, 155] ++ uleb ttypeValue
  let tables := header ++ [1] ++ uleb callSites.length ++ callSites ++ actions
  if typeinfos.isEmpty then { bytes := padTo4 tables, relocs := [] }
  else
    { bytes := padTo4 (padTo4 tables ++ typeinfos.flatMap (typeEntry format))
      relocs := typeRelocs format (padTo4 tables).length typeinfos }

/-- What the tables before the type table take behind the size of the latter. -/
def tablesSize (callSites actions : List UInt8) : ℕ :=
  ulebSize callSites.length + callSites.length + actions.length

/-- The call-site and action tables of a function. -/
def emitTables (format : ObjectFormat) (function : EhFunction) :
    Option (List UInt8 × List UInt8) := do
  let out ← build function.mod function.pads
  let (actionOffsets, actions) ← emitActions out.ehActions [] []
  let sites ← (function.ehCallSites out).mapM
    (resolveSite format (ehLabelOffsets function.invokes)
      (blockOffset function.start function.blocks) actionOffsets)
  let callSites ← siteTable function.start function.functionEnd function.start (sortedSites sites)
  some (callSites, actions)

/-- A function without calls that unwind has no table; an error gives nothing. -/
def emitLsda (format : ObjectFormat) (fuel : ℕ) (function : EhFunction) : Option (Option Lsda) :=
  if function.selected.isEmpty then some none
  else do
    let (callSites, actions) ← emitTables format function
    let typeinfos := sortedTypeinfos (ehTypeinfos function.mod function.pads)
    let ttypeValue ←
      if typeinfos.isEmpty then some 0
      else ttypeLoop (tablesSize callSites actions) typeinfos.length fuel 1
    some (some (assembleLsda format ttypeValue callSites actions typeinfos))

inductive Handler where
  | typeinfo (symbol : String)
  | catchAll
  | cleanup
  deriving DecidableEq

structure LsdaHeader where
  typeBase : Option ℕ
  callSites : List UInt8
  actions : List UInt8

/-- Landing pads are relative to the function, call sites are unsigned numbers. -/
def readTables (typeBase : Option ℕ) : List UInt8 → Option LsdaHeader
  | encoding :: rest =>
    if encoding = 1 then
      (readUleb rest).map fun (size, rest) =>
        { typeBase, callSites := rest.take size, actions := rest.drop size }
    else none
  | [] => none

def readHeader (bytes : List UInt8) : Option LsdaHeader :=
  match bytes with
  | landingPads :: types :: rest =>
    if landingPads ≠ 255 then none
    else if types = 255 then readTables none rest
    else
      (readUleb rest).bind fun (distance, rest) =>
        readTables (some (bytes.length - rest.length + distance)) rest
  | _ => none

/-- The first range that holds an address; addresses ascend. -/
def findSite : ℕ → List UInt8 → ℕ → Option (ℕ × ℕ)
  | 0, _, _ => none
  | fuel + 1, bytes, address => do
      let (start, rest) ← readUleb bytes
      let (size, rest) ← readUleb rest
      let (landingPad, rest) ← readUleb rest
      let (action, rest) ← readUleb rest
      if address < start then none
      else if address < start + size then some (landingPad, action)
      else findSite fuel rest address

/-- The filters of a chain; a next field is relative to its own place. -/
def readChain (actions : List UInt8) : ℕ → ℕ → Option (List ℤ)
  | 0, _ => none
  | fuel + 1, position => do
      let (filter, rest) ← readSleb (actions.drop position)
      let (delta, _) ← readSleb rest
      if delta = 0 then some [filter]
      else
        let next := ((actions.length - rest.length : ℕ) : ℤ) + delta
        (readChain actions fuel next.toNat).map (filter :: ·)

/-- The entry that a filter selects, counted back from the end of the table. -/
def readType (lsda : Lsda) (typeBase filter : ℕ) : Option Handler :=
  if typeBase < 4 * filter then none
  else
    match lsda.relocs.lookup (typeBase - 4 * filter) with
    | some cell => some (.typeinfo cell.symbol)
    | none =>
      if (lsda.bytes.drop (typeBase - 4 * filter)).take 4 = [0, 0, 0, 0] then some .catchAll
      else none

def readFilter (lsda : Lsda) (typeBase : Option ℕ) (filter : ℤ) : Option Handler :=
  if filter = 0 then some .cleanup
  else if filter < 0 then none
  else typeBase.bind fun base => readType lsda base filter.toNat

/-- Where an exception at an address goes: nowhere, or to a landing pad with a
list of handlers.  A landing pad without actions is a cleanup. -/
def readAddress (lsda : Lsda) (address : ℕ) : Option (Option (ℕ × List Handler)) := do
  let header ← readHeader lsda.bytes
  let (landingPad, action) ← findSite header.callSites.length header.callSites address
  if landingPad = 0 then some none
  else if action = 0 then some (some (landingPad, [.cleanup]))
  else
    let filters ← readChain header.actions header.actions.length (action - 1)
    let handlers ← filters.mapM (readFilter lsda header.typeBase)
    some (some (landingPad, handlers))

/-- A function without a table has no landing pads. -/
def lookupAddress : Option Lsda → ℕ → Option (Option (ℕ × List Handler))
  | none, _ => some none
  | some lsda, address => readAddress lsda address

/-- The clauses of a landing pad. -/
def padHandlers (mod : EhModule) (pad : LandingPad) : List Handler :=
  let payload := mod.ehLandingPadPayload pad.payload
  payload.clauseTypeinfos.map (fun global => Handler.typeinfo (mod.targetSymbolName global)) ++
    (if payload.hasCatchAll then [Handler.catchAll] else []) ++
    (if payload.isCleanup then [Handler.cleanup] else [])

/-- The table sends every address to the landing pad of the call that holds it,
with the clauses of the pad, and all other addresses nowhere. -/
structure Describes (function : EhFunction) (lsda : Option Lsda) : Prop where
  inside : ∀ invoke offset, (invoke, offset) ∈ function.invokes →
    ∀ pad ∈ function.pads, pad.block = invoke.unwind →
    ∀ address, offset ≤ address → address < offset + invoke.size →
    ∃ landingPad, blockOffset function.start function.blocks invoke.unwind = some landingPad ∧
      lookupAddress lsda (address - function.start) =
        some (some (landingPad - function.start, padHandlers function.mod pad))
  outside : ∀ address, function.start ≤ address → address < function.functionEnd →
    (∀ invoke offset, (invoke, offset) ∈ function.invokes →
      address < offset ∨ offset + invoke.size ≤ address) →
    lookupAddress lsda (address - function.start) = some none

end Aburi.Backend.Eh
