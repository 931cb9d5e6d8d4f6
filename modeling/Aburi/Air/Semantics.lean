import Aburi.Air.Module
import Aburi.Lib.Machine
import Aburi.Numeric.FloatingPoint

/-!
# Execution of functions

A value is a bit pattern; reading a value of a type keeps the bits of that
type.  Integer operations, comparisons, conversions, selection and pointer
arithmetic have their fixed meaning here.  Everything else (memory, calls,
inline assembly, exceptions, floating-point arithmetic, and the results of
operations that the language leaves undefined) goes through an interpretation
of the surrounding world, over which every result is quantified.
-/

namespace Aburi.Air

open Aburi.Lib Aburi.Numeric

/-- Scalars of every type fit in 128 bits. -/
abbrev Val := BitVec 128

def floatBits : FloatKind → ℕ
  | .f32 => 32
  | .f64 => 64
  | .f128 => 128
  | .f80 => 80

def bitSize (mod : Module) (type : TypeId) : ℕ :=
  let data := mod.types.type type
  match data.kind with
  | .void => 0
  | .int => data.intWidth
  | .float => floatBits data.floatKind
  | .ptr => mod.pointerWidth

/-- Keeps the bits that belong to a type. -/
def clampBits (bits : ℕ) (v : Val) : Val := (v.setWidth bits).setWidth 128

def clamp (mod : Module) (type : TypeId) (v : Val) : Val := clampBits (bitSize mod type) v

/-- What an instruction is, apart from the values it reads and defines. -/
structure InstShape where
  op : Opcode
  flags : ℕ
  type : TypeId
  aux : Word
  aux2 : Word
  operandTypes : List TypeId
  deriving DecidableEq

def Function.shape (f : Function) (i : InstId) : InstShape :=
  let data := f.inst i
  ⟨data.op, data.flags, data.type, data.aux, data.aux2, data.operands.map f.valueType⟩

/-- The world around a function: what it leaves to memory, to other functions
and to the target. -/
structure Interp (World : Type) where
  undef : TypeId → Val
  address : ValueKind → Word → Val
  compareFloats : InstShape → List Val → Bool
  exec : InstShape → List Val → World → Option (Val × World)
  leave : InstShape → List Val → World → Option (ℕ × Val × World)
  labelBlock : Val → BlockId

def floatFormat (type : TypeId) : FloatFormat :=
  if type = types.F32 then .ieeeBinary32
  else if type = types.F64 then .ieeeBinary64
  else if type = types.F80 then .x87Extended80
  else if type = types.F128 then .ieeeBinary128
  else .invalid

/-- Integer operators, undefined where the source language leaves them so. -/
def evalBinop (op : Opcode) {w : ℕ} (a b : BitVec w) : Option (BitVec w) :=
  match op with
  | .iadd => some (a + b)
  | .isub => some (a - b)
  | .imul => some (a * b)
  | .iand => some (a &&& b)
  | .ior => some (a ||| b)
  | .ixor => some (a ^^^ b)
  | .shl => if b.toNat < w then some (a <<< b.toNat) else none
  | .lshr => if b.toNat < w then some (a >>> b.toNat) else none
  | .ashr => if b.toNat < w then some (a.sshiftRight b.toNat) else none
  | .udiv => if b = 0 then none else some (a / b)
  | .urem => if b = 0 then none else some (a % b)
  | .sdiv => if b = 0 ∨ a = BitVec.intMin w ∧ b = -1 then none else some (a.sdiv b)
  | .srem => if b = 0 ∨ a = BitVec.intMin w ∧ b = -1 then none else some (a.srem b)
  | _ => none

def evalCond (cond : IntCond) {w : ℕ} (a b : BitVec w) : Bool :=
  match cond with
  | .eq => a == b
  | .ne => a != b
  | .slt => a.slt b
  | .sle => a.sle b
  | .sgt => b.slt a
  | .sge => b.sle a
  | .ult => a.ult b
  | .ule => a.ule b
  | .ugt => b.ult a
  | .uge => b.ule a

def boolVal (b : Bool) : Val := if b then 1 else 0

def floatOperand (type : TypeId) (v : Val) : FloatValue :=
  ⟨floatFormat type, v.setWidth 64, (v >>> 64).setWidth 64⟩

def floatResult (result : FloatResult) : Option Val :=
  if result.hasValue then some (rawBits result.value) else none

/-- The value of an operation that needs nothing from the world, where it has
one. -/
def evalPure {World : Type} (interp : Interp World) (mod : Module) (shape : InstShape)
    (vals : List Val) : Option Val :=
  let size := bitSize mod shape.type
  let sourceType := shape.operandTypes.headD 0
  let sourceSize := bitSize mod sourceType
  match shape.op, vals with
  | .icmp, [a, b] =>
    (IntCond.ofCode? shape.aux.toNat).map fun cond =>
      boolVal (evalCond cond (a.setWidth sourceSize) (b.setWidth sourceSize))
  | .fcmp, vals => some (boolVal (interp.compareFloats shape vals))
  | .trunc, [a] => some a
  | .zext, [a] => some a
  | .sext, [a] => some (((a.setWidth sourceSize).signExtend size).setWidth 128)
  | .fpext, [a] | .fptrunc, [a] =>
    floatResult (convert (floatOperand sourceType a) (floatFormat shape.type))
  | .sitofp, [a] => floatResult (fromInteger a sourceSize true (floatFormat shape.type))
  | .uitofp, [a] => floatResult (fromInteger a sourceSize false (floatFormat shape.type))
  | .bitcast, [a] => some a
  | .ptrAdd, [a, b] => some (a + b)
  | .select, [cond, a, b] => some (if cond = 0 then b else a)
  | op, [a, b] =>
    (evalBinop op (a.setWidth size) (b.setWidth size)).map (·.setWidth 128)
  | _, _ => none

theorem evalPure_compareFloats {World : Type} {interp : Interp World} {mod : Module}
    {shape : InstShape} (op : shape.op = .fcmp) (vals : List Val) :
    evalPure interp mod shape vals = some (boolVal (interp.compareFloats shape vals)) := by
  simp only [evalPure, op]

abbrev Env := ValueId → Val

inductive State (World : Type) where
  | running (block : BlockId) (position : ℕ) (env : Env) (world : World)
  | returned (world : World)

/-- An executed instruction with the values of its operands. -/
abbrev Event := InstId × List Val

section Step

variable {World : Type} (interp : Interp World) (mod : Module) (f : Function)

def constant (data : ValueData) : Val :=
  match data.kind with
  | .constInt | .constFloat => data.payload2 ++ data.payload
  | .constNull => 0
  | .undef => interp.undef data.type
  | .globalAddr | .funcAddr | .labelAddr => interp.address data.kind data.payload
  | .instResult | .blockParam => 0

def readValue (env : Env) (v : ValueId) : Val :=
  let data := f.value v
  clamp mod data.type (if f.isConstant v then constant interp data else env v)

def readAll (env : Env) (vs : List ValueId) : List Val :=
  vs.map (readValue interp mod f env)

/-- Simultaneous assignment; a name without a new value keeps its old one. -/
def assign (env : Env) (names : List ValueId) (vals : List Val) : Env :=
  fun v => ((names.zip vals).lookup v).getD (env v)

/-- The result of an instruction that stays in its block. -/
def execInst (i : InstId) (vals : List Val) (world : World) : Option (Val × World) :=
  match evalPure interp mod (f.shape i) vals with
  | some v => some (clamp mod (f.inst i).type v, world)
  | none => (interp.exec (f.shape i) vals world).map fun (v, world) =>
    (clamp mod (f.inst i).type v, world)

/-- The edge a terminator takes, and the value it defines on the way. -/
def leaveInst (i : InstId) (vals : List Val) (world : World) :
    Option (ℕ × Val × World) :=
  match (f.inst i).op with
  | .jump => some (0, 0, world)
  | .brIf => some (if vals.headD 0 = 0 then 1 else 0, 0, world)
  | .switch =>
    let cases := (f.jumpTable (auxHigh (f.inst i).aux)).map SwitchCase.value
    some ((cases.findIdx? fun value => value.setWidth 128 = vals.headD 0).elim 0 (· + 1), 0, world)
  | .brIndirect =>
    ((f.successors i).findIdx? fun call =>
      (f.blockCall call).target = interp.labelBlock (vals.headD 0)).map (·, 0, world)
  | .asmGoto | .invoke | .invokeIndirect => interp.leave (f.shape i) vals world
  | _ => none

/-- Along the unwind edge of an invoke there is no result. -/
def edgeEnv (i : InstId) (index : ℕ) (result : Val) (env : Env) : Env :=
  if f.producesOnEdge i index then
    assign env [(f.inst i).result] [clamp mod (f.inst i).type result]
  else env

/-- Entering a block over an edge; blocks that are not linked do not exist. -/
def enter (i : InstId) (index : ℕ) (env : Env) (world : World) : Option (State World) :=
  match (f.successors i)[index]? with
  | none => none
  | some call =>
    let target := (f.blockCall call).target
    if target ∈ f.layout then
      some (.running target 0
        (assign env (f.blockParams target) (readAll interp mod f env (f.blockCallArgs call))) world)
    else none

/-- One step, with the instruction it executes. -/
def stepState : State World → Option (State World × Event)
  | .returned _ => none
  | .running block position env world =>
    match (f.blockInsts block)[position]? with
    | none => none
    | some i =>
      let vals := readAll interp mod f env (f.operands i)
      if (f.inst i).op.isTerminator then
        match leaveInst interp f i vals world with
        | none => some (.returned world, (i, vals))
        | some (index, result, world) =>
          (enter interp mod f i index (edgeEnv mod f i index result env) world).map
            fun state => (state, (i, vals))
      else
        match execInst interp mod f i vals world with
        | none => some (.returned world, (i, vals))
        | some (result, world) =>
          some (.running block (position + 1)
            (assign env [(f.inst i).result] [result]) world, (i, vals))

/-- The machine of a function, with the events of the instructions in `kept`. -/
def machine (kept : InstId → Bool) : Machine (State World) Event where
  step state :=
    (stepState interp mod f state).map fun (next, event) =>
      (next, if kept event.1 then [event] else [])

/-- A function is entered with arguments for its parameters; what the other
values hold before they are defined is arbitrary. -/
def start (arguments : List Val) (junk : Env) (world : World) : State World :=
  .running f.entryBlock 0 (assign junk (f.blockParams f.entryBlock) arguments) world

/-- The final world, where the function was left properly. -/
def finalWorld : State World → Option World
  | .returned world => some world
  | .running .. => none

end Step

end Aburi.Air
