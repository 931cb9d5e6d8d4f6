import Aburi.Backend.FastRegisterIntegrity
import Mathlib.Algebra.Divisibility.Basic
import Mathlib.Data.Finset.Card
import Mathlib.Data.Finset.Dedup

/-!
# Values in the code of the fast allocator

The code of a block is run on the contents of the physical registers and of
the frame objects.  What the instructions of the block compute is left open:
an outcome fixes what each of them writes and what it leaves behind wherever it
is free to, and the reads are compared with what was written most recently.
-/

namespace Aburi.Backend.FastRegAllocator

variable {Op : Type}

structure Contents where
  regs : ℕ → BitVec 128
  frame : ℕ → BitVec 128

inductive Access where
  | store (bits : ℕ)
  | load (bits : ℕ)
  deriving DecidableEq

def lowBits (bits : ℕ) (value : BitVec 128) : BitVec 128 :=
  (value.setWidth bits).setWidth 128

/-- The part of a register that a virtual register of its class uses. -/
def vregBits (function : MFunction Op) (vreg : ℕ) : ℕ :=
  8 * spillBytes function (function.vregClass vreg)

/-- Spill code is a store or a load between a register and a frame object. -/
def runAccess (access : Op → Option Access) (contents : Contents) (inst : MInst Op) :
    Contents :=
  match access inst.opcode, inst.operands with
  | some (.store bits), [.reg (.phys phys), .frame slot _, _] =>
    { contents with
      frame := Function.update contents.frame slot (lowBits bits (contents.regs phys)) }
  | some (.load bits), [.reg (.phys phys), .frame slot _, _] =>
    { contents with
      regs := Function.update contents.regs phys (lowBits bits (contents.frame slot)) }
  | _, _ => contents

def runInserted (access : Op → Option Access) (inserted : List (MInst Op))
    (contents : Contents) : Contents :=
  inserted.foldl (runAccess access) contents

/-- What the instructions of a block do: `written` is what each one writes to
its operand 0, and `left` what it leaves in registers and objects that it may
change. -/
structure Outcome where
  written : ℕ → BitVec 128
  left : ℕ → Contents

/-- The low half of `kept` under the high half of `lost`. -/
def withHigh (kept lost : BitVec 128) : BitVec 128 :=
  (lost >>> 64) <<< 64 ||| lowBits 64 kept

/-- A register after an instruction, before operand 0 is written.  A call
keeps callee-saved registers, of which only the low half is saved. -/
def leftInReg (target : Target Op) (isCall : Bool) (kept lost : ℕ → BitVec 128) (phys : ℕ) :
    BitVec 128 :=
  if phys ∈ target.regs.gprOrder ∨ phys ∈ target.regs.fprOrder then
    if isCall then
      if target.regs.isCalleeSaved phys then withHigh (kept phys) (lost phys) else lost phys
    else kept phys
  else lost phys

/-- One instruction of the block itself; the objects below `objects` are those
it can reach. -/
def runSource (target : Target Op) (objects : ℕ) (outcome : Outcome) (k : ℕ) (inst : MInst Op)
    (contents : Contents) : Contents :=
  let info := target.opcodeInfo inst.opcode
  let left := leftInReg target info.isCall contents.regs (outcome.left k).regs
  { regs :=
      match info.definesOperand0, inst.operands with
      | true, .reg (.phys phys) :: _ => Function.update left phys (outcome.written k)
      | _, _ => left
    frame := fun object =>
      if object < objects then (outcome.left k).frame object else contents.frame object }

section Blocks

variable (target : Target Op) (access : Op → Option Access) (function : MFunction Op)
  (insts : List (MInst Op)) (outcome : Outcome) (initial : Contents)

/-- The contents in front of instruction `k` and of the code inserted there. -/
def contentsBefore : ℕ → Contents
  | 0 => initial
  | k + 1 =>
    match insts[k]? with
    | some inst =>
      let rewritten := rewriteAt target function insts k inst
      runSource target function.frameObjects.length outcome k rewritten.1
        (runInserted access rewritten.2.inserted (contentsBefore k))
    | none => contentsBefore k

/-- The contents when instruction `k` reads its operands. -/
def contentsAt (k : ℕ) (inst : MInst Op) : Contents :=
  runInserted access (rewriteAt target function insts k inst).2.inserted
    (contentsBefore target access function insts outcome initial k)

end Blocks

def definesVreg (target : Target Op) (vreg : ℕ) (inst : MInst Op) : Bool :=
  (target.opcodeInfo inst.opcode).definesOperand0 && inst.operands.head? == some (.reg (.vreg vreg))

/-- The last instruction in front of `k` that writes a virtual register. -/
def lastDef (target : Target Op) (insts : List (MInst Op)) (vreg : ℕ) : ℕ → Option ℕ
  | 0 => none
  | k + 1 => if insts[k]?.any (definesVreg target vreg) then some k else lastDef target insts vreg k

/-- Operand `index` of an instruction reads a virtual register. -/
structure ReadsVreg (target : Target Op) (inst : MInst Op) (index vreg : ℕ) : Prop where
  operand : inst.operands[index]? = some (.reg (.vreg vreg))
  reads : isWriteOnlyDef (target.opcodeInfo inst.opcode) index = false

/-- Every read of a virtual register sees what was written to it most
recently. -/
def ReadsMostRecent (target : Target Op) (access : Op → Option Access)
    (function : MFunction Op) (insts : List (MInst Op)) : Prop :=
  ∀ outcome initial k inst index vreg, insts[k]? = some inst →
    ReadsVreg target inst index vreg →
    ∃ j phys, lastDef target insts vreg k = some j ∧
      (rewriteAt target function insts k inst).1.operands[index]? = some (.reg (.phys phys)) ∧
      lowBits (vregBits function vreg)
          ((contentsAt target access function insts outcome initial k inst).regs phys) =
        lowBits (vregBits function vreg) (outcome.written j)

/-- Facts of the targets: the orders list different registers, calls write
no operand, and iterating a map visits all of its keys. -/
structure Target.Regular (target : Target Op) : Prop where
  gprNodup : target.regs.gprOrder.Nodup
  fprNodup : target.regs.fprOrder.Nodup
  apart : ∀ phys ∈ target.regs.gprOrder, phys ∉ target.regs.fprOrder
  calls : ∀ op, (target.opcodeInfo op).isCall = true →
    (target.opcodeInfo op).definesOperand0 = false
  visits : ∀ keys, ∀ phys ∈ keys, phys ∈ target.visitOrder keys

/-- The opcodes for spill code move a whole register of their class. -/
structure SpillCode (target : Target Op) (access : Op → Option Access)
    (function : MFunction Op) : Prop where
  spill : ∀ cls, access (target.hooks.spillOpcode cls) = some (.store (8 * spillBytes function cls))
  reload : ∀ cls, access (target.hooks.reloadOpcode cls) = some (.load (8 * spillBytes function cls))
  word : function.wordBytes ≤ 8

/-- The virtual registers of an instruction that share an order. -/
def namedInOrder (function : MFunction Op) (cls : RegClass) (inst : MInst Op) : Finset ℕ :=
  (virtualRegs inst.operands).toFinset.filter
    fun vreg => (function.vregClass vreg = .gpr) ↔ (cls = .gpr)

structure Allocatable (target : Target Op) (function : MFunction Op)
    (insts : List (MInst Op)) : Prop where
  definedFirst : ∀ k inst index vreg, insts[k]? = some inst → ReadsVreg target inst index vreg →
    (lastDef target insts vreg k).isSome = true
  room : ∀ inst ∈ insts, ∀ cls, (namedInOrder function cls inst).card ≤ (target.order cls).length
  outside : ∀ inst ∈ insts, ∀ phys ∈ explicitRegs inst.operands,
    phys ∉ target.regs.gprOrder ∧ phys ∉ target.regs.fprOrder

end Aburi.Backend.FastRegAllocator
