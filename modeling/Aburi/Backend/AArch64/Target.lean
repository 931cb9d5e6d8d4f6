import Aburi.Backend.AArch64.Insts
import Aburi.Backend.RegAllocFast

/-!
# AArch64: registers and argument setup

The register file numbers `x0`..`x30` as 0..30, `sp` as 31, `xzr` as 32 and
`v0`..`v31` as 33..64.
-/

namespace Aburi.Backend.AArch64

def X8 : Nat := 8
def X16 : Nat := 16
def X17 : Nat := 17
def X19 : Nat := 19
def X28 : Nat := 28
def X29 : Nat := 29
def X30 : Nat := 30
def SP : Nat := 31
def V0 : Nat := 33
def V7 : Nat := 40
def V8 : Nat := 41
def V15 : Nat := 48
def V16 : Nat := 49
def V28 : Nat := 61
def V29 : Nat := 62
def V31 : Nat := 64

/-- The registers from `first` to `last`, both included. -/
def regRange (first last : Nat) : List Nat :=
  List.range' first (last + 1 - first)

def isFprIndex (phys : Nat) : Bool := V0 ≤ phys && phys ≤ V31

def physRegClass (phys : Nat) : RegClass :=
  if isFprIndex phys then .fpr else .gpr

def isCalleeSavedReg (phys : Nat) : Bool :=
  (X19 ≤ phys && phys ≤ X28) || (V8 ≤ phys && phys ≤ V15)

def regInfo : TargetRegInfo :=
  { gprOrder := regRange 9 15 ++ regRange 0 8 ++ regRange X19 X28
    fprOrder := regRange V16 V31 ++ regRange V0 V7 ++ regRange V8 V15
    isCalleeSaved := isCalleeSavedReg
    regClass := physRegClass
    linearGprCaller := regRange 9 13
    linearGprCallee := regRange X19 X28
    linearFprCaller := regRange V16 V28
    linearFprCallee := regRange V8 V15
    linearGprScratch := [14, 15, 16, X17]
    linearFprScratch := regRange V29 V31 }

def spillHooks : SpillHooks A64Op :=
  { storeGpr := .strX
    loadGpr := .ldrX
    storeFpr := .strD
    loadFpr := .ldrD
    storeFpr128 := .strQ
    loadFpr128 := .ldrQ }

def fastTarget (visitOrder : List Nat → List Nat) :
    FastRegAllocator.Target A64Op :=
  { regs := regInfo
    hooks := spillHooks
    opcodeInfo := regallocInfo
    visitOrder := visitOrder }

/-- One argument of a call after `use_reg`: the virtual register that holds it
and what its type says about it.  `storeOp` and `slotSize` are used when the
argument goes to the stack. -/
structure CallArg where
  vreg : Nat
  fp : Bool := false
  wide : Bool := true
  f128 : Bool := false
  sret : Bool := false
  variadicSlot : Bool := false
  storeOp : A64Op := .strX
  slotSize : Nat := 8
  deriving DecidableEq

structure RegMove where
  phys : Nat
  arg : CallArg

/-- The running state of `lower_call`'s placement loop. -/
structure Placement where
  nextGpr : Nat := 0
  nextFpr : Nat := 0
  stackOff : Nat := 0
  stores : List (MInst A64Op) := []
  moves : List RegMove := []

def Placement.toReg (placement : Placement) (phys : Nat) (arg : CallArg) :
    Placement :=
  { placement with moves := placement.moves ++ [⟨phys, arg⟩] }

def Placement.toStack (placement : Placement) (arg : CallArg) : Placement :=
  let offset :=
    (placement.stackOff + arg.slotSize - 1) / arg.slotSize * arg.slotSize
  { placement with
    stackOff := offset + arg.slotSize
    stores := placement.stores ++
      [{ opcode := arg.storeOp
         operands := [.reg (.vreg arg.vreg), .reg (.phys SP), .imm offset] }] }

def placeArg (placement : Placement) (arg : CallArg) : Placement :=
  if arg.sret then
    placement.toReg X8 arg
  else if arg.variadicSlot then
    placement.toStack arg
  else if arg.fp then
    if placement.nextFpr ≥ 8 then
      placement.toStack arg
    else
      { placement.toReg (V0 + placement.nextFpr) arg with
        nextFpr := placement.nextFpr + 1 }
  else if placement.nextGpr ≥ 8 then
    placement.toStack arg
  else
    { placement.toReg placement.nextGpr arg with
      nextGpr := placement.nextGpr + 1 }

def emitRegMove (move : RegMove) : MInst A64Op :=
  let opcode : A64Op :=
    if move.arg.f128 then .movV16b
    else if move.arg.fp then if move.arg.wide then .fmovD else .fmovS
    else if move.arg.wide then .movX else .movW
  { opcode := opcode
    operands := [.reg (.phys move.phys), .reg (.vreg move.arg.vreg)] }

inductive Callee where
  | symbol (name : String)
  | indirect (vreg : Nat)

def emitCall : Callee → List (MInst A64Op)
  | .symbol name => [{ opcode := .bl, operands := [.symbol name .plain 0] }]
  | .indirect vreg =>
    [{ opcode := .movX, operands := [.reg (.phys X17), .reg (.vreg vreg)] },
      { opcode := .blr, operands := [.reg (.phys X17)] }]

/-- The instructions `lower_call` emits from the placed arguments to the call,
in a function whose outgoing area is part of the static frame. -/
def lowerCall (args : List CallArg) (callee : Callee) : List (MInst A64Op) :=
  let placement := args.foldl placeArg {}
  placement.stores ++ placement.moves.map emitRegMove ++ emitCall callee

end Aburi.Backend.AArch64
