import Aburi.Air.Dominators
import Aburi.Air.Module

/-!
# The verifier

Every check returns the diagnostics it adds, in the order in which the source
adds them.  A function is accepted when the run finishes and none of its
diagnostics is an error.
-/

namespace Aburi.Air

structure VerifierDiag where
  isError : Bool
  message : String
  loc : SrcLoc := 0
  deriving DecidableEq

def VerifyResult.ok (diags : List VerifierDiag) : Bool :=
  diags.all fun diag => !diag.isError

namespace FunctionVerifier

def intWidthAllowed (width : ℕ) : Bool :=
  width == 8 || width == 16 || width == 32 || width == 64 || width == 128

def floatBitWidth : FloatKind → ℕ
  | .f32 => 32
  | .f64 => 64
  | .f128 => 128
  | .f80 => 80

section Checks

variable (mod : Module) (f : Function)

def error (message : String) (loc : SrcLoc := 0) : List VerifierDiag :=
  [⟨true, "func @" ++ f.name ++ ": " ++ message, loc⟩]

def note (message : String) : List VerifierDiag :=
  [⟨false, "func @" ++ f.name ++ ": " ++ message, 0⟩]

def errorIf (condition : Bool) (message : String) (loc : SrcLoc := 0) :
    List VerifierDiag :=
  if condition then error f message loc else []

def blockLabel (b : BlockId) : String :=
  match f.layout.idxOf? b with
  | none => "b?"
  | some number => "b" ++ toString number

def instLabel (b : BlockId) (i : InstId) : String :=
  blockLabel f b ++ ": " ++ (f.inst i).op.mnemonic

def blockBeginsWith (b : BlockId) (op : Opcode) : Bool :=
  if f.isValidBlock b then
    match (f.blockInsts b).head? with
    | none => false
    | some first => (f.inst first).op == op
  else false

def sig : SigData := mod.types.signature f.sig

def checkSigParam (index : ℕ) (param : SigParam) : List VerifierDiag :=
  match param.role with
  | .normal => []
  | .sret =>
    errorIf f (index != 0) "sret parameter must be parameter 0" ++
      errorIf f (!mod.types.isPtr param.type) "sret parameter must be a pointer"
  | .indirectByval =>
    errorIf f (!mod.types.isPtr param.type) "byval parameter must be a pointer"
  | .stackByval =>
    errorIf f (!mod.types.isPtr param.type)
        "stackbyval parameter must be a pointer" ++
      errorIf f (param.byvalSize == 0)
        "stackbyval parameter must carry its byte size"

def checkRetClass (data : SigData) : List VerifierDiag :=
  match data.retClass with
  | .void => []
  | .scalar =>
    errorIf f (data.retType == 0 || !mod.types.isScalar data.retType)
      "scalar return requires a scalar return type"
  | .intPair =>
    errorIf f
      (data.retType == 0 || !mod.types.isInt data.retType || data.retCount != 2)
      "pair return requires an integer element type and count 2"
  | .hfa =>
    errorIf f
      (data.retType == 0 || !mod.types.isFloat data.retType ||
        data.retCount == 0 || decide (4 < data.retCount))
      "hfa return requires a float element type and count 1..4"
  | .indirectSret =>
    errorIf f (data.params.head?.map SigParam.role != some .sret)
      "sret return requires an sret-role parameter 0"

def checkSignature : List VerifierDiag :=
  let data := sig mod f
  data.params.zipIdx.flatMap (fun (param, index) => checkSigParam mod f index param) ++
    checkRetClass mod f data ++
    errorIf f (data.isVariadic && decide (data.params.length < data.fixedParamCount))
      "variadic signature names more fixed parameters than it has"

def checkEntrySignature : List VerifierDiag :=
  let data := sig mod f
  let params := f.blockParams f.entryBlock
  if params.length ≠ data.params.length then
    error f ("entry block has " ++ toString params.length ++
      " parameters but the signature has " ++ toString data.params.length)
  else
    (params.zip data.params).zipIdx.flatMap fun ((param, expected), index) =>
      errorIf f (f.valueType param != expected.type)
        ("entry block parameter " ++ toString index ++ " has type " ++
          mod.types.spelling (f.valueType param) ++
          " but the signature expects " ++ mod.types.spelling expected.type)

/-- The reserved-float check of the source accepts every kind. -/
def checkValueType (type : TypeId) (what : String) : List VerifierDiag :=
  if !mod.types.isValidType type then error f (what ++ " has an invalid type")
  else if mod.types.isVoid type then error f (what ++ " has type void")
  else
    errorIf f (mod.types.isInt type && !intWidthAllowed (mod.types.intWidth type))
      (what ++ " has unsupported integer width i" ++
        toString (mod.types.intWidth type))

def checkInstLayout (b : BlockId) (last : InstId) (i : InstId) (position : ℕ) :
    List VerifierDiag :=
  errorIf f ((f.inst i).block != b)
      (instLabel f b i ++ ": instruction is linked into " ++ blockLabel f b ++
        " but records another owner block") ++
    errorIf f ((f.inst i).op.isTerminator && i != last)
      (instLabel f b i ++ ": terminator in the middle of a block") ++
    errorIf f ((f.inst i).op == .ehLandingPad && position != 0)
      (instLabel f b i ++
        ": eh_landing_pad must be the first instruction of its block")

def checkBlockLayout (b : BlockId) : List VerifierDiag :=
  (f.blockParams b).flatMap (fun param =>
      checkValueType mod f (f.valueType param) (blockLabel f b ++ ": block parameter")) ++
    match f.lastInst? b with
    | none => error f (blockLabel f b ++ " is empty")
    | some last =>
      (f.blockInsts b).zipIdx.flatMap (fun (i, position) => checkInstLayout f b last i position) ++
        errorIf f (!(f.inst last).op.isTerminator)
          (blockLabel f b ++ " does not end in a terminator")

def constIntCanonical (width : ℕ) (data : ValueData) : Bool :=
  if width < 64 then data.payload2 == 0 && data.payload >>> width == 0
  else if width = 64 then data.payload2 == 0
  else if width < 128 then data.payload2 >>> (width - 64) == 0
  else true

def constFloatCanonical (kind : FloatKind) (data : ValueData) : Bool :=
  match kind with
  | .f32 => data.payload2 == 0 && data.payload >>> 32 == 0
  | .f64 => data.payload2 == 0
  | .f80 => data.payload2 >>> 16 == 0
  | .f128 => true

/-- The flag is false where the checks that need the operand's type must not
run; the last error leaves it set. -/
def checkOperandValue (b : BlockId) (i : InstId) (op : ValueId) :
    Bool × List VerifierDiag :=
  if !f.isValidValue op then
    (false, error f (instLabel f b i ++ ": invalid operand value id"))
  else
    let data := f.value op
    match data.kind with
    | .constInt =>
      if !mod.types.isInt data.type then
        (false, error f (instLabel f b i ++
          ": integer constant has a non-integer type"))
      else if !constIntCanonical (mod.types.intWidth data.type) data then
        (false, error f (instLabel f b i ++
          ": integer constant has non-canonical bits"))
      else (true, [])
    | .constFloat =>
      if !mod.types.isFloat data.type then
        (false, error f (instLabel f b i ++
          ": floating constant has a non-floating type"))
      else if !constFloatCanonical (mod.types.type data.type).floatKind data then
        (false, error f (instLabel f b i ++
          ": floating constant has non-canonical bits"))
      else (true, [])
    | .labelAddr =>
      let target := Function.payloadIndex data
      if !f.isValidBlock target then
        (false, error f (instLabel f b i ++ ": label address of an invalid block"))
      else
        (true, errorIf f (!(f.blockParams target).isEmpty)
          (instLabel f b i ++ ": label address of a block with parameters"))
    | _ => (true, [])

def checkOperandValues (b : BlockId) (i : InstId) : Bool × List VerifierDiag :=
  let checked := (f.operands i).map (checkOperandValue mod f b i)
  (checked.all Prod.fst, checked.flatMap Prod.snd)

def opType (i : InstId) (index : ℕ) : TypeId :=
  f.valueType ((f.operands i).getD index 0)

def requireType (b : BlockId) (i : InstId) (index : ℕ) (expected : TypeId) :
    List VerifierDiag :=
  errorIf f (opType f i index != expected)
    (instLabel f b i ++ ": operand " ++ toString index ++ " has type " ++
      mod.types.spelling (opType f i index) ++ ", expected " ++
      mod.types.spelling expected)
    (f.inst i).loc

/-- The two operand checks that ask for a kind of type. -/
def requireKind (holds : TypeId → Bool) (what : String) (b : BlockId) (i : InstId)
    (index : ℕ) : List VerifierDiag :=
  errorIf f (!holds (opType f i index))
    (instLabel f b i ++ ": operand " ++ toString index ++ " must be " ++ what ++
      ", got " ++ mod.types.spelling (opType f i index))
    (f.inst i).loc

def requireInt (b : BlockId) (i : InstId) (index : ℕ) : List VerifierDiag :=
  requireKind mod f mod.types.isInt "an integer" b i index

def requirePtr (b : BlockId) (i : InstId) (index : ℕ) : List VerifierDiag :=
  requireKind mod f mod.types.isPtr "a pointer" b i index

def sizeIntType : TypeId :=
  if mod.pointerWidth = 64 then types.I64 else types.I32

/-- A complaint about an instruction that carries no location. -/
def complainIf (b : BlockId) (i : InstId) (condition : Bool) (what : String) :
    List VerifierDiag :=
  errorIf f condition (instLabel f b i ++ ": " ++ what)

def requireResult (b : BlockId) (i : InstId) (type : TypeId) (what : String) :
    List VerifierDiag :=
  complainIf f b i ((f.inst i).type != type) what

def checkVolatileFlag (b : BlockId) (i : InstId) : List VerifierDiag :=
  if (f.inst i).flags % 2 = instFlagVolatile then
    match (f.inst i).op with
    | .load | .store | .atomicLoad | .atomicStore => []
    | _ => complainIf f b i true "volatile flag on a non-memory operation"
  else []

def checkBranchArg (b : BlockId) (i : InstId) (target : BlockId) (index : ℕ)
    (arg param : ValueId) : List VerifierDiag :=
  if !f.isValidValue arg then error f (instLabel f b i ++ ": invalid branch argument")
  else
    errorIf f (f.valueType arg != f.valueType param)
      (instLabel f b i ++ ": branch argument " ++ toString index ++ " has type " ++
        mod.types.spelling (f.valueType arg) ++ " but " ++ blockLabel f target ++
        " expects " ++ mod.types.spelling (f.valueType param))
      (f.inst i).loc

def checkBlockCall (b : BlockId) (i : InstId) (call : BlockCallId)
    (allowArgs : Bool := true) (allowLandingPad : Bool := false) :
    List VerifierDiag :=
  if !f.isValidBlockCall call then
    error f (instLabel f b i ++ ": invalid block-call id")
  else
    let target := (f.blockCall call).target
    if !f.isValidBlock target then
      error f (instLabel f b i ++ ": branch to an invalid block")
    else
      let args := f.blockCallArgs call
      let params := f.blockParams target
      complainIf f b i (target == f.entryBlock) "branch targets the entry block" ++
        complainIf f b i (blockBeginsWith f target .ehLandingPad && !allowLandingPad)
          "only an invoke unwind edge may target a landing pad" ++
        if !allowArgs && !args.isEmpty then
          error f (instLabel f b i ++ ": edge must not carry arguments")
        else if args.length ≠ params.length then
          error f (instLabel f b i ++ ": branch to " ++ blockLabel f target ++
            " passes " ++ toString args.length ++ " arguments, expected " ++
            toString params.length) (f.inst i).loc
        else
          (args.zip params).zipIdx.flatMap fun ((arg, param), index) =>
            checkBranchArg mod f b i target index arg param

def hasTrailingDest (data : SigData) : Bool :=
  data.retClass == .intPair || data.retClass == .hfa

def checkCallArgs (b : BlockId) (i : InstId) (data : SigData)
    (args : List ValueId) : List VerifierDiag :=
  let trailing := if hasTrailingDest data then 1 else 0
  let required := data.params.length + trailing
  if (if data.isVariadic then decide (args.length < required)
      else args.length != required) then
    error f (instLabel f b i ++ ": call passes " ++ toString args.length ++
      " operands, signature expects " ++
      (if data.isVariadic then "at least " else "") ++ toString required)
      (f.inst i).loc
  else
    (args.zip data.params).zipIdx.flatMap (fun ((arg, param), index) =>
        errorIf f (f.valueType arg != param.type)
          (instLabel f b i ++ ": call argument " ++ toString index ++ " has type " ++
            mod.types.spelling (f.valueType arg) ++ ", signature expects " ++
            mod.types.spelling param.type) (f.inst i).loc) ++
      ((args.take (args.length - trailing)).drop data.params.length).flatMap
        (fun arg => checkValueType mod f (f.valueType arg)
          (instLabel f b i ++ ": variadic argument")) ++
      complainIf f b i
        (hasTrailingDest data && !mod.types.isPtr (f.valueType (args.getLastD 0)))
        "multi-register return requires a trailing destination pointer"

def checkCallResult (b : BlockId) (i : InstId) (data : SigData) :
    List VerifierDiag :=
  let inst := f.inst i
  if data.retClass = .scalar then
    if inst.result = 0 then
      error f (instLabel f b i ++ ": scalar call must produce a result")
    else
      errorIf f (inst.type != data.retType)
        (instLabel f b i ++ ": call result type " ++ mod.types.spelling inst.type ++
          " does not match signature return " ++ mod.types.spelling data.retType)
  else
    complainIf f b i (inst.result != 0) "non-scalar call must not produce a result"

/-- The normal edge of an invoke is an ordinary edge; its unwind edge must
lead to a landing pad. -/
def checkInvokeEdges (b : BlockId) (i : InstId) : List VerifierDiag :=
  let unwind := auxHigh (f.inst i).aux2
  checkBlockCall mod f b i (auxLow (f.inst i).aux2) ++
    checkBlockCall mod f b i unwind true true ++
    complainIf f b i
      (f.isValidBlockCall unwind && f.isValidBlock (f.blockCall unwind).target &&
        !blockBeginsWith f (f.blockCall unwind).target .ehLandingPad)
      "invoke unwind target must begin with eh_landing_pad"

/-- A direct call names its callee, an indirect one its signature. -/
def checkDirectCallee (b : BlockId) (i : InstId) : List VerifierDiag :=
  let callee := auxLow (f.inst i).aux
  let data := mod.types.signature (mod.function callee).sig
  checkCallArgs mod f b i data (f.operands i) ++ checkCallResult mod f b i data

def checkIndirectSite (b : BlockId) (i : InstId)
    (rest : SigData → List VerifierDiag) : List VerifierDiag :=
  let sigId := auxLow (f.inst i).aux
  if !mod.types.isValidSig sigId then
    complainIf f b i true "invalid signature"
  else if (f.operands i).isEmpty then
    complainIf f b i true "missing callee operand"
  else
    requirePtr mod f b i 0 ++ rest (mod.types.signature sigId)

/-- Edges of the terminators that choose from a list of labels. -/
def checkLabelEdge (b : BlockId) (i : InstId) (what : String)
    (call : BlockCallId) : List VerifierDiag :=
  checkBlockCall mod f b i call false ++
    complainIf f b i
      (f.isValidBlockCall call && f.isValidBlock (f.blockCall call).target &&
        !(f.blockParams (f.blockCall call).target).isEmpty)
      (what ++ " target has parameters")

def checkAlignment (b : BlockId) (i : InstId) (alignLog2 : ℕ) : List VerifierDiag :=
  complainIf f b i (decide (32 ≤ alignLog2)) "unreasonable alignment"

def checkAccessOrder (b : BlockId) (i : InstId) (code : ℕ)
    (forbidden : MemOrder) (what : String) : List VerifierDiag :=
  match MemOrder.ofCode? code with
  | none => complainIf f b i true "invalid memory order"
  | some order => complainIf f b i (order == forbidden || order == .acqRel) what

def checkSwitchCases (b : BlockId) (i : InstId) :
    List Word → List SwitchCase → List VerifierDiag
  | _, [] => []
  | seen, next :: rest =>
    complainIf f b i (seen.contains next.value)
        ("duplicate case value " ++ toString next.value.toNat) ++
      checkBlockCall mod f b i next.target ++
      checkSwitchCases b i (next.value :: seen) rest

/-- The opcodes that touch memory. -/
def checkMemory (b : BlockId) (i : InstId) : List VerifierDiag :=
  let data := f.inst i
  match data.op with
  | .stackAlloc =>
    requireResult f b i types.PTR "result must be ptr" ++
      checkAlignment f b i (stackAllocAlignLog2 data.aux)
  | .stackAllocDyn =>
    requireType mod f b i 0 (sizeIntType mod) ++
      requireResult f b i types.PTR "result must be ptr" ++
      checkAlignment f b i data.aux.toNat
  | .stackSave => requireResult f b i types.PTR "result must be ptr"
  | .stackRestore => requirePtr mod f b i 0
  | .load => requirePtr mod f b i 0 ++ checkAlignment f b i data.aux.toNat
  | .store => requirePtr mod f b i 1 ++ checkAlignment f b i data.aux.toNat
  | .memcpy | .memmove =>
    requirePtr mod f b i 0 ++ requirePtr mod f b i 1 ++ requireType mod f b i 2 (sizeIntType mod)
  | .memset =>
    requirePtr mod f b i 0 ++ requireType mod f b i 1 types.I8 ++
      requireType mod f b i 2 (sizeIntType mod)
  | .atomicLoad =>
    requirePtr mod f b i 0 ++
      checkAccessOrder f b i (atomicAccessOrder data.aux) .release
        "load order cannot be a release order" ++
      checkAlignment f b i (atomicAccessAlignLog2 data.aux)
  | .atomicStore =>
    requirePtr mod f b i 1 ++
      checkAccessOrder f b i (atomicAccessOrder data.aux) .acquire
        "store order cannot be an acquire order" ++
      checkAlignment f b i (atomicAccessAlignLog2 data.aux)
  | .atomicRmw =>
    requirePtr mod f b i 0 ++
      complainIf f b i (RmwOp.ofCode? (rmwOp data.aux)).isNone
        "invalid atomic operation" ++
      complainIf f b i (MemOrder.ofCode? (rmwOrder data.aux)).isNone
        "invalid memory order" ++
      if !mod.types.isInt (opType f i 1) then
        complainIf f b i true "operand must be an integer"
      else requireResult f b i (opType f i 1) "result type must match the operand"
  | .atomicCas =>
    requirePtr mod f b i 0 ++
      requireType mod f b i 2 (opType f i 1) ++
      requireResult f b i (opType f i 1) "result type must match the operands" ++
      if (MemOrder.ofCode? (casSuccessOrder data.aux)).isNone then
        complainIf f b i true "invalid memory order"
      else
        checkAccessOrder f b i (casFailureOrder data.aux) .release
          "failure order cannot be a release order"
  | .fence =>
    complainIf f b i (MemOrder.ofCode? data.aux.toNat).isNone "invalid memory order"
  | _ => []

/-- The bits of a type that a bitcast compares. -/
def bitcastBits (type : TypeId) : ℕ :=
  let data := mod.types.type type
  if data.kind = .int then data.intWidth else floatBitWidth data.floatKind

/-- The opcodes that compute a value from their operands. -/
def checkArithmetic (b : BlockId) (i : InstId) : List VerifierDiag :=
  let data := f.inst i
  let from' := opType f i 0
  match data.op with
  | .iadd | .isub | .imul | .iand | .ior | .ixor | .shl | .sdiv | .udiv | .srem
  | .urem | .ashr | .lshr =>
    requireInt mod f b i 0 ++ requireType mod f b i 1 from' ++
      requireResult f b i from' "result type must match operands"
  | .bswap | .clz | .ctz | .popcnt =>
    requireInt mod f b i 0 ++
      requireResult f b i from' "result type must match the operand" ++
      complainIf f b i
        (data.op == .bswap && mod.types.isInt from' && mod.types.intWidth from' % 16 != 0)
        "bswap requires a multi-byte integer"
  | .fadd | .fsub | .fmul | .fdiv | .frem =>
    if !mod.types.isFloat from' then
      complainIf f b i true "operands must be floating point"
    else
      requireType mod f b i 1 from' ++
        requireResult f b i from' "result type must match operands"
  | .fneg =>
    if !mod.types.isFloat from' then
      complainIf f b i true "operand must be floating point"
    else requireResult f b i from' "result type must match operand"
  | .icmp =>
    complainIf f b i (!mod.types.isInt from' && !mod.types.isPtr from')
        "operands must be integers or pointers" ++
      requireType mod f b i 1 from' ++
      requireResult f b i types.I8 "result must be i8" ++
      complainIf f b i (IntCond.ofCode? data.aux.toNat).isNone
        "invalid condition code"
  | .fcmp =>
    complainIf f b i (!mod.types.isFloat from') "operands must be floating point" ++
      requireType mod f b i 1 from' ++
      requireResult f b i types.I8 "result must be i8" ++
      complainIf f b i (FloatCond.ofCode? data.aux.toNat).isNone
        "invalid condition code"
  | .trunc | .zext | .sext =>
    if !mod.types.isInt from' || !mod.types.isInt data.type then
      complainIf f b i true "int cast requires integer types"
    else
      let fromWidth := mod.types.intWidth from'
      let toWidth := mod.types.intWidth data.type
      complainIf f b i
        (!(if data.op = .trunc then decide (toWidth < fromWidth)
          else decide (fromWidth < toWidth)))
        ("invalid width change i" ++ toString fromWidth ++ " -> i" ++
          toString toWidth)
  | .fptrunc | .fpext =>
    if !mod.types.isFloat from' || !mod.types.isFloat data.type then
      complainIf f b i true "float cast requires float types"
    else
      let fromWidth := floatBitWidth (mod.types.type from').floatKind
      let toWidth := floatBitWidth (mod.types.type data.type).floatKind
      complainIf f b i
        (!(if data.op = .fptrunc then decide (toWidth < fromWidth)
          else decide (fromWidth < toWidth)))
        "invalid float width change"
  | .fptosi | .fptoui =>
    complainIf f b i (!mod.types.isFloat from' || !mod.types.isInt data.type)
      "requires float operand, int result"
  | .sitofp | .uitofp =>
    complainIf f b i (!mod.types.isInt from' || !mod.types.isFloat data.type)
      "requires int operand, float result"
  | .ptrtoint =>
    complainIf f b i (!mod.types.isPtr from' || !mod.types.isInt data.type)
      "requires ptr operand, int result"
  | .inttoptr =>
    complainIf f b i (!mod.types.isInt from' || !mod.types.isPtr data.type)
      "requires int operand, ptr result"
  | .bitcast =>
    if mod.types.isPtr from' || mod.types.isPtr data.type then
      complainIf f b i true
        "pointers are not bitcastable (use ptrtoint/inttoptr)"
    else
      complainIf f b i
        (!mod.types.isScalar from' || !mod.types.isScalar data.type ||
          bitcastBits mod from' != bitcastBits mod data.type)
        "bitcast requires equal bit widths"
  | .ptrAdd =>
    requirePtr mod f b i 0 ++ requireType mod f b i 1 (sizeIntType mod) ++
      requireResult f b i from' "result type must match the pointer"
  | .select =>
    requireType mod f b i 0 types.I8 ++ requireType mod f b i 2 (opType f i 1) ++
      requireResult f b i (opType f i 1) "result type must match the inputs"
  | _ => []

/-- Inline assembly, exceptions and the remaining opcodes without edges. -/
def checkRuntime (b : BlockId) (i : InstId) : List VerifierDiag :=
  let data := f.inst i
  let opCount := data.operands.length
  match data.op with
  | .vaStart =>
    requirePtr mod f b i 0 ++
      complainIf f b i (!(sig mod f).isVariadic)
        "va_start in a non-variadic function"
  | .inlineAsm =>
    if mod.asmPayloads.length ≤ auxLow data.aux then
      complainIf f b i true "invalid asm payload index"
    else
      let payload := mod.asmPayload (auxLow data.aux)
      complainIf f b i (payload.constraints.length != opCount)
          ("asm has " ++ toString payload.constraints.length ++
            " constraints for " ++ toString opCount ++ " operands") ++
        complainIf f b i (payload.operandTypes.length != opCount)
          ("asm has " ++ toString payload.operandTypes.length ++
            " operand types for " ++ toString opCount ++ " operands") ++
        complainIf f b i
          (!payload.registerBindings.isEmpty && payload.registerBindings.length != opCount)
          ("asm has " ++ toString payload.registerBindings.length ++
            " register bindings for " ++ toString opCount ++ " operands")
  | .ehAllocException | .frameAddr | .returnAddr =>
    requireResult f b i types.PTR "result must be ptr"
  | .ehLandingPad =>
    requireResult f b i types.PTR "result must be ptr" ++
      if mod.ehLandingPadPayloads.length ≤ auxLow data.aux then
        complainIf f b i true "invalid landing-pad payload index"
      else
        let clauses := mod.ehLandingPadPayload (auxLow data.aux)
        complainIf f b i
            (!clauses.isCleanup && !clauses.hasCatchAll && clauses.clauseTypeinfos.isEmpty)
            "landing pad has no clauses" ++
          clauses.clauseTypeinfos.flatMap fun clause =>
            complainIf f b i (!mod.isValidGlobal clause)
              "landing-pad clause references an invalid global"
  | .ehSelector =>
    let pad := f.value (data.operands.headD 0)
    requirePtr mod f b i 0 ++
      requireResult f b i types.I32 "result must be i32" ++
      complainIf f b i
        (pad.kind != .instResult ||
          !f.isValidInst (Function.payloadIndex pad) ||
          (f.inst (Function.payloadIndex pad)).op != .ehLandingPad)
        "operand must be an eh_landing_pad result"
  | .ehTypeId =>
    requirePtr mod f b i 0 ++ requireResult f b i types.I32 "result must be i32"
  | .catchBegin =>
    requirePtr mod f b i 0 ++ requireResult f b i types.PTR "result must be ptr"
  | .call =>
    if !mod.isValidFunc (auxLow data.aux) then
      complainIf f b i true "invalid callee"
    else checkDirectCallee mod f b i
  | .callIndirect =>
    checkIndirectSite mod f b i fun site =>
      checkCallArgs mod f b i site (data.operands.drop 1) ++ checkCallResult mod f b i site
  | _ => []

def checkTerminator (b : BlockId) (i : InstId) : List VerifierDiag :=
  let data := f.inst i
  let ops := data.operands
  match data.op with
  | .jump => checkBlockCall mod f b i (auxLow data.aux)
  | .brIf =>
    requireType mod f b i 0 types.I8 ++
      checkBlockCall mod f b i (auxLow data.aux) ++
      checkBlockCall mod f b i (auxHigh data.aux)
  | .switch =>
    requireInt mod f b i 0 ++
      checkBlockCall mod f b i (auxLow data.aux) ++
      if f.jumpTables.length ≤ auxHigh data.aux then
        complainIf f b i true "invalid jump-table index"
      else checkSwitchCases mod f b i [] (f.jumpTable (auxHigh data.aux))
  | .asmGoto =>
    if mod.asmPayloads.length ≤ auxLow data.aux then
      complainIf f b i true "invalid asm payload index"
    else
      let payload := mod.asmPayload (auxLow data.aux)
      complainIf f b i
          (payload.constraints.length != ops.length || payload.operandTypes.length != ops.length)
          "asm goto metadata does not match its operands" ++
        if f.blockCallLists.length ≤ auxLow data.aux2 then
          complainIf f b i true "invalid label-list index"
        else if (f.blockCallList (auxLow data.aux2)).isEmpty then
          complainIf f b i true "asm goto has no fallthrough edge"
        else
          (f.blockCallList (auxLow data.aux2)).flatMap
            (checkLabelEdge mod f b i "asm goto")
  | .brIndirect =>
    requirePtr mod f b i 0 ++
      if f.blockCallLists.length ≤ auxLow data.aux then
        complainIf f b i true "invalid target-list index"
      else
        let calls := f.blockCallList (auxLow data.aux)
        complainIf f b i calls.isEmpty "empty plausible-target list" ++
          calls.flatMap (checkLabelEdge mod f b i "indirect-branch")
  | .ret =>
    match (sig mod f).retClass with
    | .void | .indirectSret =>
      complainIf f b i (!ops.isEmpty) "this return class carries no operand"
    | .scalar =>
      if ops.length ≠ 1 then
        complainIf f b i true "must return exactly one value"
      else requireType mod f b i 0 (sig mod f).retType
    | .intPair | .hfa =>
      if ops.length ≠ 1 then
        complainIf f b i true "must return the buffer pointer"
      else requirePtr mod f b i 0
  | .throw =>
    if ops.length ≠ 2 ∧ ops.length ≠ 3 then
      complainIf f b i true
        "throw expects exception, typeinfo, and optional destructor"
    else
      requirePtr mod f b i 0 ++ requirePtr mod f b i 1 ++
        if ops.length = 3 then requirePtr mod f b i 2 else []
  | .resume => requirePtr mod f b i 0 ++ requireType mod f b i 1 types.I32
  | .invoke =>
    if !mod.isValidFunc (auxLow data.aux) then
      complainIf f b i true "invalid callee"
    else checkDirectCallee mod f b i ++ checkInvokeEdges mod f b i
  | .invokeIndirect =>
    checkIndirectSite mod f b i fun site =>
      checkCallArgs mod f b i site (ops.drop 1) ++
        checkCallResult mod f b i site ++ checkInvokeEdges mod f b i
  | .tailCallIndirect =>
    checkIndirectSite mod f b i fun site =>
      complainIf f b i (site.retClass != .void)
          "tail_call_indirect requires a void signature" ++
        checkCallArgs mod f b i site (ops.drop 1)
  | _ => []

def checkInst (b : BlockId) (i : InstId) : List VerifierDiag :=
  let data := f.inst i
  let ops := data.operands
  match data.op.operandCount.filter (ops.length ≠ ·) with
  | some expected =>
    error f (instLabel f b i ++ ": expected " ++ toString expected ++
      " operands, got " ++ toString ops.length)
  | none =>
    let values := checkOperandValues mod f b i
    values.2 ++
      if values.1 then
        checkVolatileFlag f b i ++
          (if data.result = 0 then []
            else checkValueType mod f data.type (instLabel f b i ++ ": result")) ++
          ops.zipIdx.flatMap (fun (op, index) =>
            checkValueType mod f (f.valueType op)
              (instLabel f b i ++ ": operand " ++ toString index)) ++
          checkMemory mod f b i ++ checkArithmetic mod f b i ++
          checkRuntime mod f b i ++ checkTerminator mod f b i
      else []

/-- Positions of the instructions of linked blocks.  The source fills a map
block by block, so the last entry for an instruction is the one that counts. -/
def instPos (i : InstId) : Option ℕ :=
  (f.layout.flatMap fun b => (f.blockInsts b).zipIdx).reverse.lookup i

def checkUse (fuel : ℕ) (tree : DominatorTree) (useBlock : BlockId)
    (useInst : InstId) (usePos : ℕ) (v : ValueId) : Option (List VerifierDiag) :=
  if !f.isValidValue v then some []
  else
    let data := f.value v
    let label := instLabel f useBlock useInst
    let loc := (f.inst useInst).loc
    match data.kind with
    | .instResult =>
      let def' := f.defInst v
      let defBlock := (f.inst def').block
      if defBlock = 0 then
        some (error f (label ++
          ": use of a value whose defining instruction is not attached") loc)
      else if defBlock = useBlock then do
        let defPos ← instPos f def'
        some (errorIf f (decide (usePos ≤ defPos))
          (label ++ ": use of a value before its definition") loc)
      else do
        let dominated ← tree.dominates fuel defBlock useBlock
        some (errorIf f (!dominated)
          (label ++ ": definition in " ++ blockLabel f defBlock ++
            " does not dominate use in " ++ blockLabel f useBlock) loc)
    | .blockParam =>
      let defBlock := Function.payloadIndex data
      if defBlock = useBlock then some []
      else do
        let dominated ← tree.dominates fuel defBlock useBlock
        some (errorIf f (!dominated)
          (label ++ ": block parameter of " ++ blockLabel f defBlock ++
            " does not dominate use in " ++ blockLabel f useBlock) loc)
    | _ => some []

/-- The values an instruction reads: its operands and the arguments of its
edges. -/
def usesOf (i : InstId) : List ValueId :=
  f.operands i ++ (f.successors i).flatMap f.blockCallArgs

def checkInstDominance (fuel : ℕ) (tree : DominatorTree) (b : BlockId)
    (i : InstId) : Option (List VerifierDiag) := do
  let usePos ← instPos f i
  let found ← (usesOf f i).mapM (checkUse f fuel tree b i usePos)
  some found.flatten

def checkBlockDominance (fuel : ℕ) (tree : DominatorTree) (b : BlockId) :
    Option (List VerifierDiag) := do
  let found ← (f.blockInsts b).mapM (checkInstDominance f fuel tree b)
  some found.flatten

def checkBlockReached (fuel : ℕ) (tree : DominatorTree) (b : BlockId) :
    Option (List VerifierDiag) :=
  if tree.reachable b then checkBlockDominance f fuel tree b
  else some (note f (blockLabel f b ++ " is unreachable"))

/-- The checks that need no dominator tree. -/
def checkStructure : List VerifierDiag :=
  checkEntrySignature mod f ++
    f.layout.flatMap (checkBlockLayout mod f) ++
    f.layout.flatMap fun b => (f.blockInsts b).flatMap (checkInst mod f b)

def run (fuel : ℕ) : Option (List VerifierDiag) :=
  if f.isDeclaration then some (checkSignature mod f)
  else do
    let tree ← DominatorTree.compute fuel f
    let found ← f.layout.mapM (checkBlockReached f fuel tree)
    some (checkSignature mod f ++ checkStructure mod f ++ found.flatten)

end Checks

end FunctionVerifier

def verifyFunction (fuel : ℕ) (mod : Module) (f : Function) :
    Option (List VerifierDiag) :=
  FunctionVerifier.run mod f fuel

/-- The run finishes and reports no error. -/
def Accepts (mod : Module) (f : Function) : Prop :=
  ∃ fuel diags, verifyFunction fuel mod f = some diags ∧ VerifyResult.ok diags = true

end Aburi.Air
