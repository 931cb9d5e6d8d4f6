import Mathlib.Algebra.Ring.Nat
import Mathlib.Data.List.AList

/-!
# Machine code before and after register allocation

The instruction selectors produce functions over virtual registers; the
allocators replace these by physical registers and add spill code.  The
opcode type stays a parameter, because every target numbers its own
instruction table and the allocators only ask three questions of an opcode.
-/

namespace Aburi.Backend

/-- The source packs the two cases into one word with a virtual bit. -/
inductive MReg where
  | phys (index : Nat)
  | vreg (index : Nat)
  deriving DecidableEq

inductive RegClass where
  | gpr
  | fpr
  | fpr128
  deriving DecidableEq

inductive SymFlavor where
  | plain
  | page
  | pageOff
  | gotPage
  | gotPageOff
  | gotPcRel
  | tlvPage
  | tlvPageOff
  | tlvPcRel
  deriving DecidableEq

inductive MOperand where
  | reg (reg : MReg)
  | imm (value : Int)
  | frame (index : Nat) (displacement : Int)
  | symbol (name : String) (flavor : SymFlavor) (addend : Int)
  | label (block : Nat)
  deriving DecidableEq

structure MInst (Op : Type) where
  opcode : Op
  aux : Nat := 0
  operands : List MOperand
  deriving DecidableEq

structure MBlock (Op : Type) where
  insts : List (MInst Op)
  addressTaken : Bool := false
  succs : List Nat := []
  deriving DecidableEq

structure FrameObject where
  size : Nat
  align : Nat
  deriving DecidableEq

/-- The fields of a machine function that selection, allocation, frame
lowering and the post-selection verifier read, and the places of the saved
registers that unwind tables are written from. -/
structure MFunction (Op : Type) where
  blocks : List (MBlock Op)
  frameObjects : List FrameObject := []
  vregClasses : List RegClass := []
  usedCsrs : List Nat := []
  csrCfaOffsets : List (Nat × Int) := []
  maxOutgoingBytes : Nat := 0
  hasDynamicStack : Bool := false
  wordBytes : Nat := 8
  deriving DecidableEq

namespace MFunction

variable {Op : Type}

def vregClass (function : MFunction Op) (vreg : Nat) : RegClass :=
  function.vregClasses.getD vreg .gpr

/-- A new frame object and its index. -/
def newFrameObject (function : MFunction Op) (size align : Nat) :
    Nat × MFunction Op :=
  (function.frameObjects.length,
    { function with frameObjects := function.frameObjects ++ [⟨size, align⟩] })

end MFunction

structure TargetRegInfo where
  gprOrder : List Nat
  fprOrder : List Nat
  isCalleeSaved : Nat → Bool
  regClass : Nat → RegClass
  linearGprCaller : List Nat := []
  linearGprCallee : List Nat := []
  linearFprCaller : List Nat := []
  linearFprCallee : List Nat := []
  linearGprScratch : List Nat := []
  linearFprScratch : List Nat := []

/-- The registers that a search for a class tries, in turn. -/
def TargetRegInfo.tried (regs : TargetRegInfo) : RegClass → List Nat
  | .gpr => regs.gprOrder
  | .fpr | .fpr128 => regs.fprOrder

structure RegAllocOpcodeInfo where
  definesOperand0 : Bool := false
  readsOperand0 : Bool := false
  isCall : Bool := false
  deriving DecidableEq

/-- The store and load opcodes that a target registers for spill code. -/
structure SpillHooks (Op : Type) where
  storeGpr : Op
  loadGpr : Op
  storeFpr : Op
  loadFpr : Op
  storeFpr128 : Op
  loadFpr128 : Op

namespace SpillHooks

variable {Op : Type}

def spillOpcode (hooks : SpillHooks Op) : RegClass → Op
  | .gpr => hooks.storeGpr
  | .fpr => hooks.storeFpr
  | .fpr128 => hooks.storeFpr128

def reloadOpcode (hooks : SpillHooks Op) : RegClass → Op
  | .gpr => hooks.loadGpr
  | .fpr => hooks.loadFpr
  | .fpr128 => hooks.loadFpr128

end SpillHooks

/-- Bytes of the frame object that a spilled register of a class needs. -/
def spillBytes {Op : Type} (function : MFunction Op) : RegClass → Nat
  | .fpr128 => 16
  | .fpr => 8
  | .gpr => function.wordBytes

/-- Both allocators record a callee-saved register the first time they hand
it out, so that the prologue saves it. -/
def noteUsedCsr {Op : Type} (regs : TargetRegInfo) (phys : Nat)
    (function : MFunction Op) : MFunction Op :=
  if regs.isCalleeSaved phys && !function.usedCsrs.contains phys then
    { function with usedCsrs := function.usedCsrs ++ [phys] }
  else
    function

/-- Finite maps of the allocators: register numbers to register or slot
numbers. -/
abbrev RegMap := AList (fun _ : Nat => Nat)

end Aburi.Backend
