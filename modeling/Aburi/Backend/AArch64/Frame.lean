import Aburi.Backend.AArch64.Target

/-!
# AArch64 frame lowering

Frame objects get their offsets, and operands that name them are replaced by
`sp` or, where the offset cannot be encoded and in frames whose stack pointer
moves, by an address that is computed in `x16`.  Offsets are 64-bit words.
-/

namespace Aburi.Backend

/-- The source keeps the displacement of a frame operand in its `imm` field. -/
def MOperand.immField : MOperand → Int
  | .imm value => value
  | .frame _ displacement => displacement
  | _ => 0

end Aburi.Backend

namespace Aburi.Backend.AArch64

abbrev Word := BitVec 64

def alignUp (value align : Word) : Word := (value + align - 1) &&& ~~~(align - 1)

end AArch64

open AArch64 (Word)

/-- Consecutive slots of a list of registers, from a start on. -/
def slotsFrom (width : Nat) : Word → List Nat → List (Nat × Word)
  | _, [] => []
  | start, phys :: rest =>
    (phys, start) :: slotsFrom width (start + BitVec.ofNat 64 width) rest

/-- The distance of a slot from the canonical frame address, which lies `below`
bytes behind the frame; the source keeps 32 bits of it. -/
def cfaOffset (slot frameSize : Word) (below : Nat) : Int :=
  ((slot - frameSize - BitVec.ofNat 64 below).setWidth 32).toInt

/-- What is recorded for the registers of a frame. -/
def csrCfaOffsets (width below : Nat) (saveBase frameSize : Word) (csrs : List Nat) :
    List (Nat × Int) :=
  (slotsFrom width saveBase csrs).map fun slot => (slot.1, cfaOffset slot.2 frameSize below)

namespace AArch64

def memAccessSize : A64Op → Nat
  | .ldrQ | .strQ => 16
  | .ldrX | .strX | .ldrD | .strD => 8
  | .ldrW | .strW | .ldrS | .strS | .ldrsw => 4
  | .ldrhW | .strhW | .ldrshW => 2
  | _ => 1

def bareBaseOnly : A64Op → Bool
  | .ldarbW | .ldarhW | .ldarW | .ldarX | .stlrbW | .stlrhW | .stlrW | .stlrX => true
  | _ => false

def regOp (phys : Nat) : MOperand := .reg (.phys phys)

def immOp (value : Word) : MOperand := .imm value.toInt

def chunk (offset : Word) (i : Nat) : Word := (offset >>> (16 * i)) &&& 0xFFFF

def movzChunk (offset : Word) (i : Nat) : MInst A64Op :=
  { opcode := .movzX, aux := i, operands := [regOp X16, immOp (chunk offset i)] }

def movkChunk (offset : Word) (i : Nat) : MInst A64Op :=
  { opcode := .movkX, aux := i, operands := [regOp X16, immOp (chunk offset i)] }

/-- One turn of the loop in `emit_offset_into_x16`. -/
def emitChunk (offset : Word) (state : List (MInst A64Op) × Bool) (i : Nat) :
    List (MInst A64Op) × Bool :=
  let (out, started) := state
  if started then
    if chunk offset i = 0 then (out, true) else (out ++ [movkChunk offset i], true)
  else if chunk offset i = 0 ∧ offset ≠ 0 then (out, false)
  else (out ++ [movzChunk offset i], true)

def emitOffsetIntoX16 (offset : Word) : List (MInst A64Op) :=
  let (out, started) := (List.range 4).foldl (emitChunk offset) ([], false)
  if started then out
  else out ++ [{ opcode := .movzX, operands := [regOp X16, .imm 0] }]

def emitSpAdjust (subtract : Bool) (amount : Word) : List (MInst A64Op) :=
  if amount = 0 then []
  else if amount ≤ 4095 then
    [{ opcode := if subtract then .subXri else .addXri
       operands := [regOp SP, regOp SP, immOp amount] }]
  else
    emitOffsetIntoX16 amount ++
      [{ opcode := if subtract then .subX else .addX
         operands := [regOp SP, regOp SP, regOp X16] }]

structure FrameLayout where
  dynamic : Bool
  gprCsrs : List Nat
  fprCsrs : List Nat
  saveBase : Word
  savePairs : Bool
  offsets : List Word
  frameSize : Word

def FrameLayout.offset (layout : FrameLayout) (index : Nat) : Word :=
  layout.offsets.getD index 0

/-- Offsets of the objects from a running end on, and the end behind them. -/
def placeObjects : Word → List FrameObject → List Word × Word
  | running, [] => ([], running)
  | running, object :: objects =>
    let start := alignUp running (BitVec.ofNat 64 (max 1 object.align))
    let rest := placeObjects (start + BitVec.ofNat 64 (max 1 object.size)) objects
    (start :: rest.1, rest.2)

def frameLayout (function : MFunction A64Op) : FrameLayout :=
  let outgoing :=
    if function.hasDynamicStack then 0
    else alignUp (BitVec.ofNat 64 function.maxOutgoingBytes) 16
  let gprCsrs := (function.usedCsrs.filter (!isFprIndex ·)).mergeSort
  let fprCsrs := (function.usedCsrs.filter (isFprIndex ·)).mergeSort
  let csrSize := alignUp (BitVec.ofNat 64 (8 * (gprCsrs.length + fprCsrs.length))) 16
  let placed := placeObjects (outgoing + csrSize) function.frameObjects
  { dynamic := function.hasDynamicStack
    gprCsrs := gprCsrs
    fprCsrs := fprCsrs
    saveBase := outgoing
    savePairs := outgoing + csrSize ≤ 504
    offsets := placed.1
    frameSize := alignUp placed.2 16 }

/-- Saves or restores in pairs; an odd last register is accessed alone. -/
def accessPairs (pair single : A64Op) : Word → List Nat → List (MInst A64Op)
  | save, first :: second :: rest =>
    { opcode := pair, operands := [regOp first, regOp second, regOp SP, immOp save] } ::
      accessPairs pair single (save + 16) rest
  | save, [last] =>
    [{ opcode := single, operands := [regOp last, regOp SP, immOp save] }]
  | _, [] => []

def accessSingles (single : A64Op) : Word → List Nat → List (MInst A64Op)
  | _, [] => []
  | save, phys :: rest =>
    { opcode := single, operands := [regOp phys, regOp SP, immOp save] } ::
      accessSingles single (save + 8) rest

/-- The floating-point registers follow the general ones. -/
def accessCsrs (layout : FrameLayout) (gprPair gpr fprPair fpr : A64Op) :
    List (MInst A64Op) :=
  let fprBase := layout.saveBase + BitVec.ofNat 64 (8 * layout.gprCsrs.length)
  if layout.savePairs then
    accessPairs gprPair gpr layout.saveBase layout.gprCsrs ++
      accessPairs fprPair fpr fprBase layout.fprCsrs
  else
    accessSingles gpr layout.saveBase layout.gprCsrs ++ accessSingles fpr fprBase layout.fprCsrs

def epilogue (layout : FrameLayout) (tailBranch : Bool) : List (MInst A64Op) :=
  let resetSp : List (MInst A64Op) :=
    if layout.dynamic then
      if layout.frameSize ≤ 4095 then
        [{ opcode := .subXri, operands := [regOp SP, regOp X29, immOp layout.frameSize] }]
      else
        emitOffsetIntoX16 layout.frameSize ++
          [{ opcode := .subX, operands := [regOp SP, regOp X29, regOp X16] }]
    else []
  let leave : MInst A64Op :=
    if tailBranch then { opcode := .brReg, operands := [regOp X17] }
    else { opcode := .ret, operands := [] }
  resetSp ++ accessCsrs layout .ldpXoff .ldrX .ldpDoff .ldrD ++
    emitSpAdjust false layout.frameSize ++
    [{ opcode := .ldpXpost, operands := [regOp X29, regOp X30, regOp SP, .imm 16] }, leave]

def prologue (layout : FrameLayout) : List (MInst A64Op) :=
  [{ opcode := .stpXpre, operands := [regOp X29, regOp X30, regOp SP, .imm (-16)] },
    { opcode := .movX, operands := [regOp X29, regOp SP] }] ++
    emitSpAdjust true layout.frameSize ++
    accessCsrs layout .stpXoff .strX .stpDoff .strD

/-- `dst` becomes the address of the byte at `offset` of the frame. -/
def emitFrameAddress (layout : FrameLayout) (dst : MOperand) (offset : Word) :
    List (MInst A64Op) :=
  if layout.dynamic then
    emitOffsetIntoX16 (layout.frameSize - offset) ++
      [{ opcode := .subX, operands := [dst, regOp X29, regOp X16] }]
  else
    emitOffsetIntoX16 offset ++ [{ opcode := .addX, operands := [dst, regOp SP, regOp X16] }]

def encodable (layout : FrameLayout) (opcode : A64Op) (offset : Word) : Bool :=
  !layout.dynamic && !bareBaseOnly opcode &&
    offset.toNat % memAccessSize opcode == 0 &&
    offset.toNat / memAccessSize opcode ≤ 4095

def lowerInst (layout : FrameLayout) (inst : MInst A64Op) : List (MInst A64Op) :=
  match inst.opcode, inst.operands with
  | .frameAddr, dst :: .frame index displacement :: _ =>
    let offset := layout.offset index + BitVec.ofInt 64 displacement
    if layout.dynamic = false ∧ offset ≤ 4095 then
      [{ opcode := .addXri, operands := [dst, regOp SP, immOp offset] }]
    else emitFrameAddress layout dst offset
  | .epilogueRet, _ => epilogue layout false
  | .epilogueTailBr, _ => epilogue layout true
  | opcode, operands =>
    match format opcode, operands with
    | .mem, first :: .frame index displacement :: third :: rest =>
      let offset := layout.offset index + BitVec.ofInt 64 displacement +
        BitVec.ofInt 64 third.immField
      if encodable layout opcode offset then
        [{ inst with operands := first :: regOp SP :: immOp offset :: rest }]
      else
        emitFrameAddress layout (regOp X16) offset ++
          [{ inst with operands := first :: regOp X16 :: .imm 0 :: rest }]
    | .rrMem, first :: second :: .frame index displacement :: rest
    | .lseRmw, first :: second :: .frame index displacement :: rest =>
      emitFrameAddress layout (regOp X16) (layout.offset index + BitVec.ofInt 64 displacement) ++
        [{ inst with operands := first :: second :: regOp X16 :: rest }]
    | _, _ => [inst]

def lowerBlock (layout : FrameLayout) (block : MBlock A64Op) : MBlock A64Op :=
  { block with insts := block.insts.flatMap (lowerInst layout) }

/-- The saved registers in the order of their slots. -/
def FrameLayout.csrs (layout : FrameLayout) : List Nat := layout.gprCsrs ++ layout.fprCsrs

/-- The prologue goes in front of the first block. -/
def lowerFrame (function : MFunction A64Op) : MFunction A64Op :=
  let layout := frameLayout function
  let blocks :=
    match function.blocks.map (lowerBlock layout) with
    | [] => []
    | entry :: rest => { entry with insts := prologue layout ++ entry.insts } :: rest
  { function with
    blocks := blocks
    csrCfaOffsets := csrCfaOffsets 8 16 layout.saveBase layout.frameSize layout.csrs }

end Aburi.Backend.AArch64
