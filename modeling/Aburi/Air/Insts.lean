import Mathlib.Algebra.Ring.Nat

/-!
# Opcodes

The opcode table of the middle-end IR with its traits, and the packing of the
small enumerations into the auxiliary words of an instruction.
-/

namespace Aburi.Air

inductive Opcode where
  | stackAlloc
  | stackAllocDyn
  | stackSave
  | stackRestore
  | load
  | store
  | memcpy
  | memmove
  | memset
  | atomicLoad
  | atomicStore
  | atomicRmw
  | atomicCas
  | fence
  | iadd
  | isub
  | imul
  | iand
  | ior
  | ixor
  | shl
  | sdiv
  | udiv
  | srem
  | urem
  | ashr
  | lshr
  | bswap
  | clz
  | ctz
  | popcnt
  | fadd
  | fsub
  | fmul
  | fdiv
  | frem
  | fneg
  | icmp
  | fcmp
  | trunc
  | zext
  | sext
  | fptrunc
  | fpext
  | fptosi
  | fptoui
  | sitofp
  | uitofp
  | ptrtoint
  | inttoptr
  | bitcast
  | ptrAdd
  | select
  | vaStart
  | inlineAsm
  | ehAllocException
  | ehLandingPad
  | ehSelector
  | ehTypeId
  | catchBegin
  | catchEnd
  | trap
  | frameAddr
  | returnAddr
  | jump
  | brIf
  | switch
  | brIndirect
  | asmGoto
  | ret
  | unreachable
  | throw
  | rethrow
  | resume
  | call
  | callIndirect
  | invoke
  | invokeIndirect
  | tailCallIndirect
  deriving DecidableEq

/-- Whether an opcode defines a value; calls do when their signature does. -/
inductive ResultKind where
  | none
  | value
  | sigDependent
  deriving DecidableEq

/-- One row of the opcode table; `operandCount` is absent for the opcodes
whose operand list has no fixed length. -/
structure OpcodeTraits where
  mnemonic : String
  operandCount : Option ℕ
  isTerminator : Bool
  resultKind : ResultKind
  hasSideEffects : Bool
  deriving DecidableEq

namespace Opcode

def traits : Opcode → OpcodeTraits
  | stackAlloc => ⟨"stack_alloc", some 0, false, .value, false⟩
  | stackAllocDyn => ⟨"stack_alloc_dyn", some 1, false, .value, true⟩
  | stackSave => ⟨"stack_save", some 0, false, .value, false⟩
  | stackRestore => ⟨"stack_restore", some 1, false, .none, true⟩
  | load => ⟨"load", some 1, false, .value, false⟩
  | store => ⟨"store", some 2, false, .none, true⟩
  | memcpy => ⟨"memcpy", some 3, false, .none, true⟩
  | memmove => ⟨"memmove", some 3, false, .none, true⟩
  | memset => ⟨"memset", some 3, false, .none, true⟩
  | atomicLoad => ⟨"atomic_load", some 1, false, .value, true⟩
  | atomicStore => ⟨"atomic_store", some 2, false, .none, true⟩
  | atomicRmw => ⟨"atomic_rmw", some 2, false, .value, true⟩
  | atomicCas => ⟨"atomic_cas", some 3, false, .value, true⟩
  | fence => ⟨"fence", some 0, false, .none, true⟩
  | iadd => ⟨"iadd", some 2, false, .value, false⟩
  | isub => ⟨"isub", some 2, false, .value, false⟩
  | imul => ⟨"imul", some 2, false, .value, false⟩
  | iand => ⟨"iand", some 2, false, .value, false⟩
  | ior => ⟨"ior", some 2, false, .value, false⟩
  | ixor => ⟨"ixor", some 2, false, .value, false⟩
  | shl => ⟨"shl", some 2, false, .value, false⟩
  | sdiv => ⟨"sdiv", some 2, false, .value, false⟩
  | udiv => ⟨"udiv", some 2, false, .value, false⟩
  | srem => ⟨"srem", some 2, false, .value, false⟩
  | urem => ⟨"urem", some 2, false, .value, false⟩
  | ashr => ⟨"ashr", some 2, false, .value, false⟩
  | lshr => ⟨"lshr", some 2, false, .value, false⟩
  | bswap => ⟨"bswap", some 1, false, .value, false⟩
  | clz => ⟨"clz", some 1, false, .value, false⟩
  | ctz => ⟨"ctz", some 1, false, .value, false⟩
  | popcnt => ⟨"popcnt", some 1, false, .value, false⟩
  | fadd => ⟨"fadd", some 2, false, .value, false⟩
  | fsub => ⟨"fsub", some 2, false, .value, false⟩
  | fmul => ⟨"fmul", some 2, false, .value, false⟩
  | fdiv => ⟨"fdiv", some 2, false, .value, false⟩
  | frem => ⟨"frem", some 2, false, .value, false⟩
  | fneg => ⟨"fneg", some 1, false, .value, false⟩
  | icmp => ⟨"icmp", some 2, false, .value, false⟩
  | fcmp => ⟨"fcmp", some 2, false, .value, false⟩
  | trunc => ⟨"trunc", some 1, false, .value, false⟩
  | zext => ⟨"zext", some 1, false, .value, false⟩
  | sext => ⟨"sext", some 1, false, .value, false⟩
  | fptrunc => ⟨"fptrunc", some 1, false, .value, false⟩
  | fpext => ⟨"fpext", some 1, false, .value, false⟩
  | fptosi => ⟨"fptosi", some 1, false, .value, false⟩
  | fptoui => ⟨"fptoui", some 1, false, .value, false⟩
  | sitofp => ⟨"sitofp", some 1, false, .value, false⟩
  | uitofp => ⟨"uitofp", some 1, false, .value, false⟩
  | ptrtoint => ⟨"ptrtoint", some 1, false, .value, false⟩
  | inttoptr => ⟨"inttoptr", some 1, false, .value, false⟩
  | bitcast => ⟨"bitcast", some 1, false, .value, false⟩
  | ptrAdd => ⟨"ptr_add", some 2, false, .value, false⟩
  | select => ⟨"select", some 3, false, .value, false⟩
  | vaStart => ⟨"va_start", some 1, false, .none, true⟩
  | inlineAsm => ⟨"inline_asm", none, false, .none, true⟩
  | ehAllocException => ⟨"eh_alloc_exception", some 0, false, .value, true⟩
  | ehLandingPad => ⟨"eh_landing_pad", some 0, false, .value, true⟩
  | ehSelector => ⟨"eh_selector", some 1, false, .value, false⟩
  | ehTypeId => ⟨"eh_typeid_for", some 1, false, .value, false⟩
  | catchBegin => ⟨"catch_begin", some 1, false, .value, true⟩
  | catchEnd => ⟨"catch_end", some 0, false, .none, true⟩
  | trap => ⟨"trap", some 0, false, .none, true⟩
  | frameAddr => ⟨"frame_addr", some 0, false, .value, false⟩
  | returnAddr => ⟨"return_addr", some 0, false, .value, false⟩
  | jump => ⟨"jump", some 0, true, .none, true⟩
  | brIf => ⟨"br_if", some 1, true, .none, true⟩
  | switch => ⟨"switch", some 1, true, .none, true⟩
  | brIndirect => ⟨"br_indirect", some 1, true, .none, true⟩
  | asmGoto => ⟨"asm_goto", none, true, .none, true⟩
  | ret => ⟨"ret", none, true, .none, true⟩
  | unreachable => ⟨"unreachable", some 0, true, .none, true⟩
  | throw => ⟨"throw", none, true, .none, true⟩
  | rethrow => ⟨"rethrow", some 0, true, .none, true⟩
  | resume => ⟨"resume", some 2, true, .none, true⟩
  | call => ⟨"call", none, false, .sigDependent, true⟩
  | callIndirect => ⟨"call_indirect", none, false, .sigDependent, true⟩
  | invoke => ⟨"invoke", none, true, .sigDependent, true⟩
  | invokeIndirect => ⟨"invoke_indirect", none, true, .sigDependent, true⟩
  | tailCallIndirect => ⟨"tail_call_indirect", none, true, .none, true⟩

def mnemonic (op : Opcode) : String := op.traits.mnemonic

def operandCount (op : Opcode) : Option ℕ := op.traits.operandCount

def isTerminator (op : Opcode) : Bool := op.traits.isTerminator

def resultKind (op : Opcode) : ResultKind := op.traits.resultKind

def hasSideEffects (op : Opcode) : Bool := op.traits.hasSideEffects

def isInvoke : Opcode → Bool
  | invoke | invokeIndirect => true
  | _ => false

end Opcode

inductive IntCond where
  | eq | ne | slt | sle | sgt | sge | ult | ule | ugt | uge
  deriving DecidableEq

inductive FloatCond where
  | oeq | one | olt | ole | ogt | oge | ord | uno
  | ueq | une | ult | ule | ugt | uge
  deriving DecidableEq

inductive MemOrder where
  | relaxed | acquire | release | acqRel | seqCst
  deriving DecidableEq

inductive RmwOp where
  | xchg | add | sub | and | nand | or | xor | max | min | umax | umin
  deriving DecidableEq

namespace IntCond

def all : List IntCond :=
  [.eq, .ne, .slt, .sle, .sgt, .sge, .ult, .ule, .ugt, .uge]

def ofCode? (code : ℕ) : Option IntCond := all[code]?

end IntCond

namespace FloatCond

def all : List FloatCond :=
  [.oeq, .one, .olt, .ole, .ogt, .oge, .ord, .uno, .ueq, .une, .ult, .ule, .ugt, .uge]

def ofCode? (code : ℕ) : Option FloatCond := all[code]?

end FloatCond

namespace MemOrder

def all : List MemOrder := [.relaxed, .acquire, .release, .acqRel, .seqCst]

def ofCode? (code : ℕ) : Option MemOrder := all[code]?

end MemOrder

namespace RmwOp

def all : List RmwOp :=
  [.xchg, .add, .sub, .and, .nand, .or, .xor, .max, .min, .umax, .umin]

def ofCode? (code : ℕ) : Option RmwOp := all[code]?

end RmwOp

/-- The fixed-width words of the IR tables. -/
abbrev Word := BitVec 64

def instFlagVolatile : ℕ := 1

def packPairAux (low high : ℕ) : Word :=
  BitVec.ofNat 64 (low + high * 2 ^ 32)

def auxLow (aux : Word) : ℕ := aux.toNat % 2 ^ 32

def auxHigh (aux : Word) : ℕ := aux.toNat / 2 ^ 32

/-- The size of a stack slot is in the low 56 bits, its alignment above. -/
def stackAllocAlignLog2 (aux : Word) : ℕ := aux.toNat / 2 ^ 56

/-- The conversions to the enumerations' underlying byte types cut the word
to eight bits before the verifier looks at the code. -/
def atomicAccessOrder (aux : Word) : ℕ := aux.toNat % 2 ^ 8

def atomicAccessAlignLog2 (aux : Word) : ℕ := aux.toNat / 2 ^ 8 % 2 ^ 8

def rmwOp (aux : Word) : ℕ := aux.toNat % 2 ^ 8

def rmwOrder (aux : Word) : ℕ := aux.toNat / 2 ^ 8 % 2 ^ 8

def casSuccessOrder (aux : Word) : ℕ := aux.toNat % 2 ^ 8

def casFailureOrder (aux : Word) : ℕ := aux.toNat / 2 ^ 8 % 2 ^ 8

end Aburi.Air
