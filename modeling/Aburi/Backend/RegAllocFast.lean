import Aburi.Backend.Mir

/-!
# The fast register allocator

The fast tier allocates one block at a time, in one forward walk.  A virtual
register keeps its physical register until it is evicted, clobbered by a call
or used for the last time; evicted values live in spill slots.

Registers that an instruction names explicitly are pinned while that
instruction is processed.  Nothing is remembered about them afterwards, except
that an explicit definition evicts the virtual register it overwrites.
-/

namespace Aburi.Backend.FastRegAllocator

variable {Op : Type}

structure AllocState where
  vregToPhys : RegMap := ∅
  physToVreg : RegMap := ∅
  spillSlots : RegMap := ∅

namespace AllocState

def assign (state : AllocState) (vreg phys : Nat) : AllocState :=
  { state with
    vregToPhys := state.vregToPhys.insert vreg phys
    physToVreg := state.physToVreg.insert phys vreg }

def unassign (state : AllocState) (vreg : Nat) : AllocState :=
  match state.vregToPhys.lookup vreg with
  | some phys =>
    { state with
      physToVreg := state.physToVreg.erase phys
      vregToPhys := state.vregToPhys.erase vreg }
  | none => state

end AllocState

/-- What the walk over one instruction carries: the function (frame objects
and used callee-saved registers grow), the block's allocation state, the
instructions inserted in front of the current one, and the pinned registers. -/
structure InstState (Op : Type) where
  function : MFunction Op
  state : AllocState
  inserted : List (MInst Op) := []
  pinned : List Nat := []

/-- The target as the allocator sees it.  `visitOrder` is the order in which
iterating a hash map visits its keys. -/
structure Target (Op : Type) where
  regs : TargetRegInfo
  hooks : SpillHooks Op
  opcodeInfo : Op → RegAllocOpcodeInfo
  visitOrder : List Nat → List Nat

def Target.order (target : Target Op) (cls : RegClass) : List Nat :=
  if cls = .gpr then target.regs.gprOrder else target.regs.fprOrder

namespace InstState

/-- The spill slot of a virtual register, created on first demand. -/
def spillSlotFor (vreg : Nat) (current : InstState Op) :
    Nat × InstState Op :=
  match current.state.spillSlots.lookup vreg with
  | some slot => (slot, current)
  | none =>
    let bytes :=
      spillBytes current.function (current.function.vregClass vreg)
    let (slot, function) := current.function.newFrameObject bytes bytes
    (slot,
      { current with
        function := function
        state :=
          { current.state with
            spillSlots := current.state.spillSlots.insert vreg slot } })

/-- Insert a store or load between `phys` and the slot of `vreg`. -/
def insertMem (opcode : Op) (vreg phys : Nat) (current : InstState Op) :
    InstState Op :=
  let (slot, current) := current.spillSlotFor vreg
  { current with
    inserted := current.inserted ++
      [{ opcode := opcode
         operands := [.reg (.phys phys), .frame slot 0, .imm 0] }] }

def makeSpill (target : Target Op) (vreg phys : Nat)
    (current : InstState Op) : InstState Op :=
  current.insertMem (target.hooks.spillOpcode (current.function.vregClass vreg)) vreg phys

def makeReload (target : Target Op) (vreg phys : Nat)
    (current : InstState Op) : InstState Op :=
  current.insertMem (target.hooks.reloadOpcode (current.function.vregClass vreg)) vreg phys

def unassign (vreg : Nat) (current : InstState Op) : InstState Op :=
  { current with state := current.state.unassign vreg }

def evictPhys (target : Target Op) (phys : Nat) (current : InstState Op) :
    InstState Op :=
  match current.state.physToVreg.lookup phys with
  | some vreg => (current.makeSpill target vreg phys).unassign vreg
  | none => current

def pin (phys : Nat) (current : InstState Op) : InstState Op :=
  { current with pinned := current.pinned ++ [phys] }

def isPinned (current : InstState Op) (phys : Nat) : Bool :=
  current.pinned.contains phys

/-- Bind `vreg` to `phys` and pin it for the rest of the instruction. -/
def take (target : Target Op) (vreg phys : Nat) (current : InstState Op) :
    InstState Op :=
  { current with
    state := current.state.assign vreg phys
    function := noteUsedCsr target.regs phys current.function
    pinned := current.pinned ++ [phys] }

/-- The first search of `allocate`: unpinned, not excluded for the class and
holding no virtual register. -/
def isFree (target : Target Op) (cls : RegClass) (current : InstState Op)
    (phys : Nat) : Bool :=
  !current.isPinned phys &&
    !(cls == .fpr128 && target.regs.isCalleeSaved phys) &&
    (current.state.physToVreg.lookup phys).isNone

/-- Register 0 is the answer when every register of the order is pinned; no
binding is recorded then. -/
def allocate (target : Target Op) (vreg : Nat) (current : InstState Op) :
    Nat × InstState Op :=
  let cls := current.function.vregClass vreg
  let order := target.order cls
  match order.find? (current.isFree target cls) with
  | some phys => (phys, current.take target vreg phys)
  | none =>
    match order.find? (fun phys => !current.isPinned phys) with
    | some phys =>
      (phys, (current.evictPhys target phys).take target vreg phys)
    | none => (0, current)

end InstState

/-- Operand 0 is skipped here when the instruction only writes it. -/
def isWriteOnlyDef (info : RegAllocOpcodeInfo) (index : Nat) : Bool :=
  index == 0 && info.definesOperand0 && !info.readsOperand0

/-- Put one operand's virtual register into a physical register, reloading it
when it has none. -/
def readOperand (target : Target Op) (info : RegAllocOpcodeInfo)
    (index : Nat) (operand : MOperand) (current : InstState Op) :
    MOperand × InstState Op :=
  match operand with
  | .reg (.vreg vreg) =>
    if isWriteOnlyDef info index then
      (operand, current)
    else
      match current.state.vregToPhys.lookup vreg with
      | some phys => (.reg (.phys phys), current.pin phys)
      | none =>
        let (phys, current) := current.allocate target vreg
        (.reg (.phys phys), current.makeReload target vreg phys)
  | _ => (operand, current)

def readOperands (target : Target Op) (info : RegAllocOpcodeInfo) :
    Nat → List MOperand → InstState Op → List MOperand × InstState Op
  | _, [], current => ([], current)
  | index, operand :: operands, current =>
    let (operand, current) := readOperand target info index operand current
    let (operands, current) :=
      readOperands target info (index + 1) operands current
    (operand :: operands, current)

/-- Spill and release every register that a call overwrites. -/
def clobberForCall (target : Target Op) (current : InstState Op) :
    InstState Op :=
  let clobbered := (target.visitOrder current.state.physToVreg.keys).filter
    (fun phys => !target.regs.isCalleeSaved phys)
  clobbered.foldl (fun current phys => current.evictPhys target phys) current

/-- The definition of operand 0, after reads and call clobbers.  The second
component tells whether the operand was virtual when the instruction came in,
which is the source's `op0_was_virtual`. -/
def defineOperand0 (target : Target Op) (wasVirtual : Bool)
    (operands : List MOperand) (current : InstState Op) :
    List MOperand × InstState Op :=
  match operands with
  | .reg (.vreg vreg) :: rest =>
    match current.state.vregToPhys.lookup vreg with
    | some phys => (.reg (.phys phys) :: rest, current)
    | none =>
      let (phys, current) := current.allocate target vreg
      (.reg (.phys phys) :: rest, current)
  | .reg (.phys phys) :: rest =>
    if wasVirtual then
      (.reg (.phys phys) :: rest, current)
    else
      (.reg (.phys phys) :: rest, current.evictPhys target phys)
  | _ => (operands, current)

def op0WasVirtual : List MOperand → Bool
  | .reg (.vreg _) :: _ => true
  | _ => false

def explicitRegs (operands : List MOperand) : List Nat :=
  operands.filterMap fun operand =>
    match operand with
    | .reg (.phys phys) => some phys
    | _ => none

def virtualRegs (operands : List MOperand) : List Nat :=
  operands.filterMap fun operand =>
    match operand with
    | .reg (.vreg vreg) => some vreg
    | _ => none

/-- The index of the last instruction that names each virtual register. -/
def lastUse (insts : List (MInst Op)) : RegMap :=
  insts.zipIdx.foldl
    (fun last (inst, index) =>
      (virtualRegs inst.operands).foldl (fun last vreg => last.insert vreg index) last)
    ∅

/-- Virtual registers named by instruction `index` for the last time give
their physical register back. -/
def releaseLastUses (last : RegMap) (index : Nat) (inst : MInst Op)
    (state : AllocState) : AllocState :=
  (virtualRegs inst.operands).foldl
    (fun state vreg =>
      if last.lookup vreg = some index then state.unassign vreg else state)
    state

/-- The instruction's walk up to the point where it is emitted: the
instruction with physical operands, and the instructions inserted before it. -/
def rewriteInst (target : Target Op) (inst : MInst Op)
    (function : MFunction Op) (state : AllocState) :
    MInst Op × InstState Op :=
  let info := target.opcodeInfo inst.opcode
  let start : InstState Op :=
    { function := function
      state := state
      pinned := explicitRegs inst.operands }
  let (operands, current) :=
    readOperands target info 0 inst.operands start
  let current :=
    if info.isCall then clobberForCall target current else current
  let (operands, current) :=
    if info.definesOperand0 then
      defineOperand0 target (op0WasVirtual inst.operands) operands current
    else
      (operands, current)
  ({ inst with operands := operands }, current)

/-- What the block's walk carries from one instruction to the next. -/
structure BlockState (Op : Type) where
  function : MFunction Op
  state : AllocState := {}
  out : List (MInst Op) := []

def stepInst (target : Target Op) (last : RegMap) (block : BlockState Op)
    (indexed : MInst Op × Nat) : BlockState Op :=
  let (rewritten, current) :=
    rewriteInst target indexed.1 block.function block.state
  { function := current.function
    state := releaseLastUses last indexed.2 indexed.1 current.state
    out := block.out ++ current.inserted ++ [rewritten] }

def allocBlock (target : Target Op) (function : MFunction Op)
    (block : MBlock Op) : BlockState Op :=
  block.insts.zipIdx.foldl (stepInst target (lastUse block.insts)) { function := function }

/-- Blocks are allocated in order, each from an empty state; frame objects and
used callee-saved registers accumulate in the function. -/
def run (target : Target Op) (function : MFunction Op) : MFunction Op :=
  let (function, blocks) := function.blocks.foldl
    (fun (function, blocks) block =>
      let final := allocBlock target function block
      (final.function, blocks ++ [{ block with insts := final.out }]))
    (function, [])
  { function with blocks := blocks }

end Aburi.Backend.FastRegAllocator
