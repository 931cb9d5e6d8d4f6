import Aburi.Backend.AArch64.Frame
import Aburi.Backend.X86.Insts

/-!
# x86 frame lowering

One pass for long mode and for 32-bit code, which differ in the size of a
word.  Objects are placed as on AArch64 (`alignUp`, `placeObjects`).
-/

namespace Aburi.Backend.X86

open Aburi.Backend.AArch64 (Word alignUp placeObjects regOp immOp)

def RAX : Nat := 0
def RCX : Nat := 1
def RDX : Nat := 2
def RBX : Nat := 3
def RSP : Nat := 4
def RBP : Nat := 5
def RSI : Nat := 6
def RDI : Nat := 7
def R12 : Nat := 12
def R15 : Nat := 15

def isCalleeSavedReg (phys : Nat) : Bool :=
  phys == RBX || phys == RBP || (R12 ≤ phys && phys ≤ R15)

def isCalleeSavedReg32 (phys : Nat) : Bool := phys == RBX || phys == RSI || phys == RDI

/-- The allocation orders; `rsp` and `rbp` are in neither. -/
def gprOrder : List Nat := [10, 11, RBX, R12, 13, 14, R15, RAX, RCX, RDX, RSI, RDI, 8, 9]

def gprOrder32 : List Nat := [RAX, RCX, RDX, RBX]

structure FrameLayout where
  dynamic : Bool
  legacy32 : Bool
  csrs : List Nat
  saveBase : Word
  offsets : List Word
  frameSize : Word

def FrameLayout.offset (layout : FrameLayout) (index : Nat) : Word :=
  layout.offsets.getD index 0

/-- The bytes of a word. -/
def FrameLayout.word (layout : FrameLayout) : Nat := if layout.legacy32 then 4 else 8

/-- The bytes between the frame and the stack pointer of the caller: the return
address and the frame pointer. -/
def FrameLayout.below (layout : FrameLayout) : Nat := 2 * layout.word

/-- `legacy32` is a field of the function in the source. -/
def frameLayout (legacy32 : Bool) (function : MFunction X86Op) : FrameLayout :=
  let word := if legacy32 then 4 else 8
  let outgoing :=
    if function.hasDynamicStack then 0
    else alignUp (BitVec.ofNat 64 function.maxOutgoingBytes) 16
  let csrs := function.usedCsrs.mergeSort
  let csrSize := alignUp (BitVec.ofNat 64 (word * csrs.length)) 16
  let placed := placeObjects (outgoing + csrSize) function.frameObjects
  { dynamic := function.hasDynamicStack
    legacy32 := legacy32
    csrs := csrs
    saveBase := outgoing
    offsets := placed.1
    frameSize := alignUp placed.2 16 }

/-- Accesses to consecutive words from a displacement on. -/
def accessWords (layout : FrameLayout) (opcode : X86Op) (base : Nat) :
    Word → List Nat → List (MInst X86Op)
  | _, [] => []
  | slot, phys :: rest =>
    { opcode := opcode, operands := [regOp phys, regOp base, immOp slot] } ::
      accessWords layout opcode base (slot + BitVec.ofNat 64 layout.word) rest

def wordLoad (layout : FrameLayout) : X86Op := if layout.legacy32 then .load32 else .load64

def wordStore (layout : FrameLayout) : X86Op := if layout.legacy32 then .store32 else .store64

def epilogue (layout : FrameLayout) : List (MInst X86Op) :=
  accessWords layout (wordLoad layout) RBP (layout.saveBase - layout.frameSize) layout.csrs ++
    [{ opcode := .movRR64, operands := [regOp RSP, regOp RBP] },
      { opcode := .popR, operands := [regOp RBP] },
      { opcode := .retQ, operands := [] }]

def prologue (layout : FrameLayout) : List (MInst X86Op) :=
  [{ opcode := .pushR, operands := [regOp RBP] },
    { opcode := .movRR64, operands := [regOp RBP, regOp RSP] }] ++
    (if layout.frameSize ≠ 0 then
      [{ opcode := .subI64, operands := [regOp RSP, immOp layout.frameSize] }]
    else []) ++
    accessWords layout (wordStore layout) RSP layout.saveBase layout.csrs

/-- The base and the displacement of the byte at `offset` of the frame. -/
def frameOperands (layout : FrameLayout) (offset : Word) : List MOperand :=
  if layout.dynamic then [regOp RBP, immOp (offset - layout.frameSize)]
  else [regOp RSP, immOp offset]

def lowerInst (layout : FrameLayout) (inst : MInst X86Op) : List (MInst X86Op) :=
  match inst.opcode, inst.operands with
  | .frameAddr, dst :: .frame index displacement :: _ =>
    [{ opcode := .leaMem
       operands := dst ::
        frameOperands layout (layout.offset index + BitVec.ofInt 64 displacement) }]
  | .epilogueRet, _ => epilogue layout
  | opcode, operands =>
    match format opcode, operands with
    | .fpuMem, .frame index displacement :: second :: rest =>
      [{ inst with operands :=
          frameOperands layout (layout.offset index + BitVec.ofInt 64 displacement +
            BitVec.ofInt 64 second.immField) ++ rest }]
    | .fpuMem, _ => [inst]
    | _, first :: .frame index displacement :: third :: rest =>
      [{ inst with operands := first ::
          (frameOperands layout (layout.offset index + BitVec.ofInt 64 displacement +
            BitVec.ofInt 64 third.immField) ++ rest) }]
    | _, _ => [inst]

def lowerBlock (layout : FrameLayout) (block : MBlock X86Op) : MBlock X86Op :=
  { block with insts := block.insts.flatMap (lowerInst layout) }

/-- The prologue goes in front of the first block. -/
def lowerFrame (legacy32 : Bool) (function : MFunction X86Op) : MFunction X86Op :=
  let layout := frameLayout legacy32 function
  let blocks :=
    match function.blocks.map (lowerBlock layout) with
    | [] => []
    | entry :: rest => { entry with insts := prologue layout ++ entry.insts } :: rest
  { function with
    blocks := blocks
    csrCfaOffsets := csrCfaOffsets layout.word layout.below layout.saveBase layout.frameSize
      layout.csrs }

end Aburi.Backend.X86
