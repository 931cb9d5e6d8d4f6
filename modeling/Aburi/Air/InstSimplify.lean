import Aburi.Air.Module
import Aburi.Air.Semantics

/-!
# Instruction simplification

Constant folding and the algebraic identities of the optimizer.  A simplified
instruction is deleted and its result replaced everywhere; the pass repeats
until a round changes nothing.  Integers of up to 64 bits are folded in a
64-bit word, signed ones after sign extension.
-/

namespace Aburi.Air

open Aburi.Numeric

structure ConstInt where
  bits : Word
  width : ℕ
  deriving DecidableEq

def widthMask (width : ℕ) : Word :=
  if 64 ≤ width then BitVec.allOnes 64 else ((1 : Word) <<< width) - 1

def signExtend (bits : Word) (width : ℕ) : Word :=
  if 64 ≤ width then bits
  else
    let sign := (1 : Word) <<< (width - 1)
    (bits ^^^ sign) - sign

def constIntOf (mod : Module) (f : Function) (v : ValueId) : Option ConstInt :=
  let data := f.value v
  if data.kind ≠ .constInt ∨ mod.types.isInt data.type = false then none
  else
    let width := mod.types.intWidth data.type
    if 64 < width then none else some ⟨data.payload &&& widthMask width, width⟩

/-- The source counts the depth upwards and gives up beyond three. -/
def isBoolValued (f : Function) : ℕ → ValueId → Bool
  | 0, _ => false
  | levels + 1, v =>
    let data := f.value v
    match data.kind with
    | .constInt => data.type == types.I8 && (data.payload == 0 || data.payload == 1)
    | .instResult =>
      let inst := f.inst (f.defInst v)
      match inst.op with
      | .icmp | .fcmp => true
      | .select =>
        isBoolValued f levels (inst.operands.getD 1 0) &&
          isBoolValued f levels (inst.operands.getD 2 0)
      | _ => false
    | _ => false

def boolDepth : ℕ := 4

/-- The division that has no representable quotient. -/
def overflowsDivision (width : ℕ) (slhs srhs : Word) : Bool :=
  slhs == signExtend ((1 : Word) <<< (width - 1)) width && srhs == -1

def foldIntBinop (op : Opcode) (lhs rhs : ConstInt) : Option Word :=
  let width := lhs.width
  let mask := widthMask width
  let slhs := signExtend lhs.bits width
  let srhs := signExtend rhs.bits width
  match op with
  | .iadd => some ((lhs.bits + rhs.bits) &&& mask)
  | .isub => some ((lhs.bits - rhs.bits) &&& mask)
  | .imul => some ((lhs.bits * rhs.bits) &&& mask)
  | .iand => some (lhs.bits &&& rhs.bits)
  | .ior => some (lhs.bits ||| rhs.bits)
  | .ixor => some (lhs.bits ^^^ rhs.bits)
  | .shl =>
    if width ≤ rhs.bits.toNat then none
    else some ((lhs.bits <<< rhs.bits.toNat) &&& mask)
  | .lshr =>
    if width ≤ rhs.bits.toNat then none else some (lhs.bits >>> rhs.bits.toNat)
  | .ashr =>
    if width ≤ rhs.bits.toNat then none
    else some (slhs.sshiftRight rhs.bits.toNat &&& mask)
  | .udiv => if rhs.bits = 0 then none else some (lhs.bits / rhs.bits)
  | .urem => if rhs.bits = 0 then none else some (lhs.bits % rhs.bits)
  | .sdiv =>
    if srhs = 0 ∨ overflowsDivision width slhs srhs then none
    else some (slhs.sdiv srhs &&& mask)
  | .srem =>
    if srhs = 0 ∨ overflowsDivision width slhs srhs then none
    else some (slhs.srem srhs &&& mask)
  | _ => none

def foldIcmp (cond : IntCond) (lhs rhs : ConstInt) : Bool :=
  let slhs := signExtend lhs.bits lhs.width
  let srhs := signExtend rhs.bits rhs.width
  match cond with
  | .eq => lhs.bits == rhs.bits
  | .ne => lhs.bits != rhs.bits
  | .slt => slhs.slt srhs
  | .sle => slhs.sle srhs
  | .sgt => srhs.slt slhs
  | .sge => srhs.sle slhs
  | .ult => lhs.bits.ult rhs.bits
  | .ule => lhs.bits.ule rhs.bits
  | .ugt => rhs.bits.ult lhs.bits
  | .uge => rhs.bits.ule lhs.bits

/-- What a comparison of a value with itself yields. -/
def reflexiveCond : IntCond → Bool
  | .eq | .sle | .sge | .ule | .uge => true
  | .ne | .slt | .sgt | .ult | .ugt => false

/-- The condition is stored in the low byte; a byte that names no condition
folds to false and is decided by nothing. -/
def icmpCond (aux : Word) : Option IntCond := IntCond.ofCode? (aux.toNat % 2 ^ 8)

section Simplify

variable (mod : Module) (f : Function)

def internFloatResult (type : TypeId) (result : FloatResult) : ValueId × Function :=
  if result.hasValue then
    f.constFloatBits type result.value.lowBits result.value.highBits
  else (0, f)

def isCommutative : Opcode → Bool
  | .iadd | .imul | .iand | .ior | .ixor => true
  | _ => false

/-- Identities with a constant; `onRight` tells on which side it stands. -/
def simplifyWithConstant (op : Opcode) (type : TypeId) (value : ValueId)
    (const : ConstInt) (onRight : Bool) : Option (ValueId × Function) :=
  match op with
  | .iadd | .ixor | .ior => if const.bits = 0 then some (value, f) else none
  | .isub | .shl | .lshr | .ashr =>
    if const.bits = 0 ∧ onRight then some (value, f) else none
  | .imul =>
    if const.bits = 1 then some (value, f)
    else if const.bits = 0 then some (f.constInt type 0 0)
    else none
  | .iand =>
    if const.bits = widthMask const.width then some (value, f)
    else if const.bits = 0 then some (f.constInt type 0 0)
    else none
  | .udiv | .sdiv => if const.bits = 1 ∧ onRight then some (value, f) else none
  | _ => none

def foldBinop (op : Opcode) (type : TypeId) (left right : ValueId) :
    Option (ValueId × Function) := do
  let lhs ← constIntOf mod f left
  let rhs ← constIntOf mod f right
  let bits ← foldIntBinop op lhs rhs
  some (f.constInt type bits 0)

/-- A constant on the right is preferred; on the left only the commutative
operators look for one. -/
def binopIdentity (op : Opcode) (type : TypeId) (left right : ValueId) :
    Option (ValueId × Function) :=
  match constIntOf mod f right, constIntOf mod f left with
  | some const, _ => simplifyWithConstant f op type left const true
  | none, some const =>
    if isCommutative op then simplifyWithConstant f op type right const false else none
  | none, none => none

def sameOperand (op : Opcode) (left right : ValueId) : Option (ValueId × Function) :=
  if (op = .iand ∨ op = .ior) ∧ left = right then some (left, f) else none

def simplifyBinop (op : Opcode) (type : TypeId) (left right : ValueId) :
    ValueId × Function :=
  ((foldBinop mod f op type left right).orElse fun _ =>
    (binopIdentity mod f op type left right).orElse fun _ =>
      sameOperand f op left right).getD (0, f)

/-- `x != 0` for a value that is zero or one, also behind an extension. -/
def boolOperand (v : ValueId) : Option ValueId :=
  if isBoolValued f boolDepth v then some v
  else if (f.value v).kind = .instResult then
    let def' := f.inst (f.defInst v)
    if def'.op = .zext ∧ isBoolValued f boolDepth (def'.operands.getD 0 0) then
      some (def'.operands.getD 0 0)
    else none
  else none

def simplifyIcmp (cond : Option IntCond) (left right : ValueId) : ValueId × Function :=
  let lhs := constIntOf mod f left
  let rhs := constIntOf mod f right
  let bool := fun b : Bool => f.constInt types.I8 (if b then 1 else 0) 0
  match lhs, rhs with
  | some l, some r => bool (cond.elim false fun cond => foldIcmp cond l r)
  | _, _ =>
    if left = right ∧ mod.types.isFloat (f.valueType left) = false ∧ cond.isSome then
      bool (cond.elim false reflexiveCond)
    else if cond = some .ne ∧ (rhs.map ConstInt.bits) = some 0 then
      ((boolOperand f left).getD 0, f)
    else (0, f)

def simplifyIntCast (op : Opcode) (type : TypeId) (operand : ValueId) :
    ValueId × Function :=
  let toWidth := mod.types.intWidth type
  match (constIntOf mod f operand).filter fun _ => decide (toWidth ≤ 64) with
  | some const =>
    let bits := if op = .sext then signExtend const.bits const.width else const.bits
    f.constInt type (bits &&& widthMask toWidth) 0
  | none =>
    let def' := f.inst (f.defInst operand)
    let source := def'.operands.getD 0 0
    if op = .trunc ∧ (f.value operand).kind = .instResult ∧
        (def'.op = .zext ∨ def'.op = .sext) ∧ f.valueType source = type then
      (source, f)
    else (0, f)

def floatValueOf (data : ValueData) : FloatValue :=
  ⟨floatFormat data.type, data.payload, data.payload2⟩

def simplifyFloatCast (type : TypeId) (operand : ValueId) : ValueId × Function :=
  let source := f.value operand
  if source.kind = .constFloat ∧ floatFormat type ≠ .invalid then
    internFloatResult f type (convert (floatValueOf source) (floatFormat type))
  else (0, f)

def simplifyIntToFloat (op : Opcode) (type : TypeId) (operand : ValueId) :
    ValueId × Function :=
  match (constIntOf mod f operand).filter fun _ => floatFormat type ≠ .invalid with
  | some const =>
    internFloatResult f type
      (fromInteger (const.bits.setWidth 128) const.width (op = .sitofp) (floatFormat type))
  | none => (0, f)

def simplifySelect (type : TypeId) (condition then' else' : ValueId) : ValueId :=
  let cond := f.value condition
  if cond.kind = .constInt then if cond.payload ≠ 0 then then' else else'
  else if then' = else' then then'
  else
    match constIntOf mod f then', constIntOf mod f else' with
    | some t, some e =>
      if type = types.I8 ∧ t.bits = 1 ∧ e.bits = 0 ∧
          isBoolValued f boolDepth condition then condition
      else 0
    | _, _ => 0

/-- The value that can stand for the result of an instruction, zero if none
was found; constants are interned on the way. -/
def simplifyInst (i : InstId) : ValueId × Function :=
  let data := f.inst i
  let operand := fun index => (f.operands i).getD index 0
  match data.op with
  | .iadd | .isub | .imul | .iand | .ior | .ixor | .shl | .sdiv | .udiv | .srem | .urem
  | .ashr | .lshr => simplifyBinop mod f data.op data.type (operand 0) (operand 1)
  | .icmp => simplifyIcmp mod f (icmpCond data.aux) (operand 0) (operand 1)
  | .trunc | .zext | .sext => simplifyIntCast mod f data.op data.type (operand 0)
  | .fpext | .fptrunc => simplifyFloatCast f data.type (operand 0)
  | .sitofp | .uitofp => simplifyIntToFloat mod f data.op data.type (operand 0)
  | .bitcast => (if f.valueType (operand 0) = data.type then operand 0 else 0, f)
  | .ptrAdd =>
    (if (constIntOf mod f (operand 1)).map ConstInt.bits = some 0 then operand 0 else 0, f)
  | .select => (simplifySelect mod f data.type (operand 0) (operand 1) (operand 2), f)
  | _ => (0, f)

end Simplify

/-- Deletes an instruction for which a value was found. -/
def replaceInst (f : Function) (i : InstId) (v : ValueId) : Function :=
  (f.replaceAllUses (f.inst i).result v).removeInst i

/-- The visit of one instruction; the flag tells that something changed. -/
def visitInst (mod : Module) (state : Function × Bool) (i : InstId) : Function × Bool :=
  let f := state.1
  let data := f.inst i
  if data.op.resultKind = .value ∧ data.flags % 2 ≠ instFlagVolatile then
    let simplified := simplifyInst mod f i
    if simplified.1 ≠ 0 ∧ simplified.1 ≠ data.result then
      (replaceInst simplified.2 i simplified.1, true)
    else (simplified.2, state.2)
  else state

/-- The source reads the next instruction before it visits the current one;
only the current one is unlinked. -/
def visitBlock (mod : Module) (state : Function × Bool) (b : BlockId) : Function × Bool :=
  (state.1.blockInsts b).foldl (visitInst mod) state

def simplifyRound (mod : Module) (f : Function) : Function × Bool :=
  f.layout.foldl (visitBlock mod) (f, false)

/-- Rounds until one changes nothing, with the flag of the whole pass. -/
def runInstsimplify (mod : Module) : ℕ → Function → Option (Function × Bool)
  | 0, _ => none
  | fuel + 1, f =>
    let round := simplifyRound mod f
    if round.2 then (runInstsimplify mod fuel round.1).map fun (g, _) => (g, true)
    else some round

end Aburi.Air
