import Aburi.Air.Insts
import Aburi.Air.Types
import Aburi.Lib.Slots

/-!
# Functions of the middle-end IR

A function owns its values, instructions, blocks and edges and names them by
index.  The source keeps operands and parameters in shared pools and links
instructions and blocks by `prev` and `next`; here each owner holds its list.
Control flow is block-argument style: an edge is a block call that passes one
argument for each parameter of its target.
-/

namespace Aburi.Air

open Aburi.Lib

inductive ValueKind where
  | instResult
  | blockParam
  | constInt
  | constFloat
  | constNull
  | undef
  | globalAddr
  | funcAddr
  | labelAddr
  deriving DecidableEq

/-- The payload of a result is its instruction, of a parameter its block. -/
structure ValueData where
  kind : ValueKind := .undef
  type : TypeId := 0
  payload : Word := 0
  payload2 : Word := 0
  deriving DecidableEq, Inhabited

structure InstData where
  op : Opcode := .unreachable
  flags : ℕ := 0
  type : TypeId := 0
  operands : List ValueId := []
  aux : Word := 0
  aux2 : Word := 0
  result : ValueId := 0
  block : BlockId := 0
  loc : SrcLoc := 0
  deriving DecidableEq, Inhabited

structure BlockData where
  insts : List InstId := []
  params : List ValueId := []
  deriving DecidableEq, Inhabited

structure BlockCall where
  target : BlockId := 0
  args : List ValueId := []
  deriving DecidableEq, Inhabited

structure SwitchCase where
  value : Word
  target : BlockCallId
  deriving DecidableEq

/-- `layout` is the list of linked blocks; its head is the entry block. -/
structure Function where
  name : String
  sig : SigId
  layout : List BlockId := []
  values : Slots ValueData := .initial {}
  insts : Slots InstData := .initial {}
  blocks : Slots BlockData := .initial {}
  blockCalls : Slots BlockCall := .initial {}
  jumpTables : List (List SwitchCase) := []
  blockCallLists : List (List BlockCallId) := []

namespace Function

def isDeclaration (f : Function) : Bool := f.layout.isEmpty

def entryBlock (f : Function) : BlockId := f.layout.headD 0

def block (f : Function) (id : BlockId) : BlockData := f.blocks.get id

def blockInsts (f : Function) (id : BlockId) : List InstId := (f.block id).insts

def blockParams (f : Function) (id : BlockId) : List ValueId := (f.block id).params

def value (f : Function) (id : ValueId) : ValueData := f.values.get id

def valueType (f : Function) (id : ValueId) : TypeId := (f.value id).type

def inst (f : Function) (id : InstId) : InstData := f.insts.get id

def operands (f : Function) (id : InstId) : List ValueId := (f.inst id).operands

def blockCall (f : Function) (id : BlockCallId) : BlockCall := f.blockCalls.get id

def blockCallArgs (f : Function) (id : BlockCallId) : List ValueId :=
  (f.blockCall id).args

def isValidBlock (f : Function) (id : BlockId) : Bool := f.blocks.isValid id

def isValidValue (f : Function) (id : ValueId) : Bool := f.values.isValid id

def isValidInst (f : Function) (id : InstId) : Bool := f.insts.isValid id

def isValidBlockCall (f : Function) (id : BlockCallId) : Bool :=
  f.blockCalls.isValid id

def jumpTable (f : Function) (index : ℕ) : List SwitchCase :=
  f.jumpTables.getD index []

def blockCallList (f : Function) (index : ℕ) : List BlockCallId :=
  f.blockCallLists.getD index []

def isConstant (f : Function) (id : ValueId) : Bool :=
  match (f.value id).kind with
  | .instResult | .blockParam => false
  | _ => true

/-- The index a payload holds: the source narrows the word to 32 bits. -/
def payloadIndex (data : ValueData) : ℕ := data.payload.toNat % 2 ^ 32

def defInst (f : Function) (id : ValueId) : InstId :=
  if (f.value id).kind = .instResult then payloadIndex (f.value id) else 0

/-- The edges of an instruction, in the order of its block calls. -/
def successors (f : Function) (id : InstId) : List BlockCallId :=
  let data := f.inst id
  match data.op with
  | .jump => [auxLow data.aux]
  | .brIf => [auxLow data.aux, auxHigh data.aux]
  | .switch =>
    auxLow data.aux :: (f.jumpTable (auxHigh data.aux)).map SwitchCase.target
  | .brIndirect => f.blockCallList (auxLow data.aux)
  | .asmGoto => f.blockCallList (auxLow data.aux2)
  | .invoke | .invokeIndirect => [auxLow data.aux2, auxHigh data.aux2]
  | _ => []

/-- Edge 1 of an invoke is taken when the callee throws. -/
def producesOnEdge (f : Function) (i : InstId) (index : ℕ) : Bool :=
  !((f.inst i).op.isInvoke && index == 1)

/-- The last instruction of a block, if it has one. -/
def lastInst? (f : Function) (id : BlockId) : Option InstId :=
  (f.blockInsts id).getLast?

/-- Operands of attached instructions and arguments of their edges. -/
def countUses (f : Function) (id : ValueId) : ℕ :=
  (f.layout.map fun b =>
    ((f.blockInsts b).map fun i =>
      (f.operands i).count id +
        ((f.successors i).map fun call => (f.blockCallArgs call).count id).sum).sum).sum

def newValue (f : Function) (kind : ValueKind) (type : TypeId)
    (payload payload2 : Word) : ValueId × Function :=
  (f.values.size, { f with values := f.values.push ⟨kind, type, payload, payload2⟩ })

/-- Interning returns the constant that was interned with the same data, and
interned constants are the only values of their kinds. -/
def internConstant (f : Function) (kind : ValueKind) (type : TypeId)
    (payload payload2 : Word) : ValueId × Function :=
  let wanted : ValueData := ⟨kind, type, payload, payload2⟩
  match (List.range f.values.size).find? fun index =>
      decide (0 < index) && f.values.get index == wanted with
  | some index => (index, f)
  | none => f.newValue kind type payload payload2

def constInt (f : Function) (type : TypeId) (bits highBits : Word) :
    ValueId × Function :=
  f.internConstant .constInt type bits highBits

def constFloatBits (f : Function) (type : TypeId) (bits highBits : Word) :
    ValueId × Function :=
  f.internConstant .constFloat type bits highBits

def constNull (f : Function) (type : TypeId) : ValueId × Function :=
  f.internConstant .constNull type 0 0

def undef (f : Function) (type : TypeId) : ValueId × Function :=
  f.internConstant .undef type 0 0

def globalAddr (f : Function) (global : GlobalId) (type : TypeId) :
    ValueId × Function :=
  f.internConstant .globalAddr type (BitVec.ofNat 64 global) 0

def funcAddr (f : Function) (func : FuncId) (type : TypeId) : ValueId × Function :=
  f.internConstant .funcAddr type (BitVec.ofNat 64 func) 0

def labelAddr (f : Function) (block : BlockId) (type : TypeId) :
    ValueId × Function :=
  f.internConstant .labelAddr type (BitVec.ofNat 64 block) 0

def retypeValue (f : Function) (id : ValueId) (type : TypeId) : Function :=
  let data := f.value id
  let retyped := { f with values := f.values.set id { data with type } }
  if data.kind = .instResult then
    let inst := payloadIndex data
    { retyped with insts := f.insts.set inst { f.inst inst with type } }
  else
    retyped

/-- New parameters of a block, numbered from a first position on. -/
def newParams (f : Function) (id : BlockId) :
    ℕ → List TypeId → List ValueId × Function
  | _, [] => ([], f)
  | position, type :: rest =>
    let created :=
      f.newValue .blockParam type (BitVec.ofNat 64 id) (BitVec.ofNat 64 position)
    let others := newParams created.2 id (position + 1) rest
    (created.1 :: others.1, others.2)

def createBlock (f : Function) (paramTypes : List TypeId) : BlockId × Function :=
  let id := f.blocks.size
  let created := f.newParams id 0 paramTypes
  (id, { created.2 with
    blocks := created.2.blocks.push { params := created.1 }
    layout := created.2.layout ++ [id] })

def appendBlockParam (f : Function) (id : BlockId) (type : TypeId) :
    ValueId × Function :=
  let data := f.block id
  let created :=
    f.newValue .blockParam type (BitVec.ofNat 64 id) (BitVec.ofNat 64 data.params.length)
  (created.1, { created.2 with
    blocks := f.blocks.set id { data with params := data.params ++ [created.1] } })

/-- Parameters behind the removed one move up and are renumbered. -/
def renumberParams (f : Function) : ℕ → List ValueId → Function
  | _, [] => f
  | position, param :: rest =>
    renumberParams
      { f with
        values := f.values.set param
          { f.value param with payload2 := BitVec.ofNat 64 position } }
      (position + 1) rest

def removeBlockParam (f : Function) (id : BlockId) (index : ℕ) : Function :=
  let data := f.block id
  renumberParams
    { f with blocks := f.blocks.set id { data with params := data.params.eraseIdx index } }
    index (data.params.drop (index + 1))

def setBlockParams (f : Function) (id : BlockId) (types : List TypeId) : Function :=
  let created := f.newParams id 0 types
  { created.2 with
    blocks := f.blocks.set id { f.block id with params := created.1 } }

/-- Unlinks a block; its instructions stay attached to it. -/
def removeBlock (f : Function) (id : BlockId) : Function :=
  { f with layout := f.layout.erase id }

def makeInst (f : Function) (op : Opcode) (resultType : TypeId)
    (operands : List ValueId) (aux : Word := 0) (loc : SrcLoc := 0)
    (flags : ℕ := 0) (aux2 : Word := 0) : InstId × Function :=
  let id := f.insts.size
  let data : InstData := { op, flags, operands, aux, aux2, loc }
  let hasResult :=
    match op.resultKind with
    | .none => false
    | .value => true
    | .sigDependent => decide (resultType ≠ 0)
  if hasResult then
    let created := f.newValue .instResult resultType (BitVec.ofNat 64 id) 0
    (id, { created.2 with
      insts := f.insts.push { data with type := resultType, result := created.1 } })
  else
    (id, { f with insts := f.insts.push data })

def appendInst (f : Function) (block : BlockId) (id : InstId) : Function :=
  { f with
    insts := f.insts.set id { f.inst id with block }
    blocks := f.blocks.set block
      { f.block block with insts := f.blockInsts block ++ [id] } }

/-- Puts `id` in front of `position` in a list of instructions. -/
def insertInFront (position id : InstId) : List InstId → List InstId
  | [] => []
  | head :: rest =>
    if head = position then id :: head :: rest
    else head :: insertInFront position id rest

def insertBefore (f : Function) (position id : InstId) : Function :=
  let block := (f.inst position).block
  { f with
    insts := f.insts.set id { f.inst id with block }
    blocks := f.blocks.set block
      { f.block block with insts := insertInFront position id (f.blockInsts block) } }

def removeInst (f : Function) (id : InstId) : Function :=
  let block := (f.inst id).block
  { f with
    insts := f.insts.set id { f.inst id with block := 0 }
    blocks := f.blocks.set block
      { f.block block with insts := (f.blockInsts block).erase id } }

def setOperand (f : Function) (id : InstId) (index : ℕ) (v : ValueId) : Function :=
  { f with
    insts := f.insts.set id
      { f.inst id with operands := (f.operands id).set index v } }

/-- The one field that callers change through a mutable reference. -/
def setInstAux (f : Function) (id : InstId) (aux : Word) : Function :=
  { f with insts := f.insts.set id { f.inst id with aux } }

def makeBlockCall (f : Function) (target : BlockId) (args : List ValueId) :
    BlockCallId × Function :=
  (f.blockCalls.size, { f with blockCalls := f.blockCalls.push ⟨target, args⟩ })

/-- The family of edge mutators: each overwrites one block call. -/
def updateBlockCall (f : Function) (id : BlockCallId)
    (change : BlockCall → BlockCall) : Function :=
  { f with blockCalls := f.blockCalls.set id (change (f.blockCall id)) }

def setBlockCallArg (f : Function) (id : BlockCallId) (index : ℕ) (v : ValueId) :
    Function :=
  f.updateBlockCall id fun call => { call with args := call.args.set index v }

def appendBlockCallArg (f : Function) (id : BlockCallId) (v : ValueId) : Function :=
  f.updateBlockCall id fun call => { call with args := call.args ++ [v] }

def removeBlockCallArg (f : Function) (id : BlockCallId) (index : ℕ) : Function :=
  f.updateBlockCall id fun call => { call with args := call.args.eraseIdx index }

def setBlockCallArgs (f : Function) (id : BlockCallId) (args : List ValueId) :
    Function :=
  f.updateBlockCall id fun call => { call with args }

def setBlockCallTarget (f : Function) (id : BlockCallId) (target : BlockId) :
    Function :=
  f.updateBlockCall id fun call => { call with target }

def makeJumpTable (f : Function) (cases : List SwitchCase) : ℕ × Function :=
  (f.jumpTables.length, { f with jumpTables := f.jumpTables ++ [cases] })

def makeBlockCallList (f : Function) (calls : List BlockCallId) : ℕ × Function :=
  (f.blockCallLists.length, { f with blockCallLists := f.blockCallLists ++ [calls] })

/-- Every operand and every edge argument, attached or not, is replaced. -/
def replaceAllUses (f : Function) (oldValue newValue : ValueId) : Function :=
  let rename := fun v => if v = oldValue then newValue else v
  { f with
    insts := f.insts.map fun data =>
      { data with operands := data.operands.map rename }
    blockCalls := f.blockCalls.map fun call =>
      { call with args := call.args.map rename } }

end Function

end Aburi.Air
