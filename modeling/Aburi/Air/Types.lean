import Mathlib.Algebra.Ring.Nat
import Mathlib.Data.List.GetD

/-!
# Types and signatures

Types and signatures are interned in one table of the module and named by
their index; index zero is never a valid name.
-/

namespace Aburi.Air

abbrev TypeId := ℕ
abbrev SigId := ℕ
abbrev FuncId := ℕ
abbrev GlobalId := ℕ
abbrev ValueId := ℕ
abbrev InstId := ℕ
abbrev BlockId := ℕ
abbrev BlockCallId := ℕ
abbrev SrcLoc := ℕ

inductive TypeKind where
  | void
  | int
  | float
  | ptr
  deriving DecidableEq

inductive FloatKind where
  | f32
  | f64
  | f128
  | f80
  deriving DecidableEq

structure TypeData where
  kind : TypeKind := .void
  floatKind : FloatKind := .f64
  intWidth : ℕ := 0
  addressSpace : ℕ := 0
  deriving DecidableEq, Inhabited

inductive RetClass where
  | void
  | scalar
  | intPair
  | hfa
  | indirectSret
  deriving DecidableEq

inductive ParamRole where
  | normal
  | sret
  | indirectByval
  | stackByval
  deriving DecidableEq

structure SigParam where
  type : TypeId
  role : ParamRole := .normal
  byvalSize : ℕ := 0
  byvalAlign : ℕ := 0
  coerceGroup : ℕ := 0
  deriving DecidableEq

structure SigData where
  retClass : RetClass := .void
  retType : TypeId := 0
  retCount : ℕ := 0
  retSseMask : ℕ := 0
  params : List SigParam := []
  isVariadic : Bool := false
  fixedParamCount : ℕ := 0
  deriving DecidableEq, Inhabited

namespace types

def VOID : TypeId := 1
def I8 : TypeId := 2
def I16 : TypeId := 3
def I32 : TypeId := 4
def I64 : TypeId := 5
def I128 : TypeId := 6
def F32 : TypeId := 7
def F64 : TypeId := 8
def F128 : TypeId := 9
def PTR : TypeId := 10
def F80 : TypeId := 11

end types

/-- Both tables keep a placeholder at index zero. -/
structure TypeTable where
  types : List TypeData
  sigs : List SigData

namespace TypeTable

/-- The table every module starts from. -/
def initial : TypeTable where
  types :=
    [{}, {}, { kind := .int, intWidth := 8 }, { kind := .int, intWidth := 16 },
      { kind := .int, intWidth := 32 },
      { kind := .int, intWidth := 64 },
      { kind := .int, intWidth := 128 },
      { kind := .float, floatKind := .f32 },
      { kind := .float, floatKind := .f64 },
      { kind := .float, floatKind := .f128 },
      { kind := .ptr },
      { kind := .float, floatKind := .f80 }]
  sigs := [{}]

def type (table : TypeTable) (id : TypeId) : TypeData :=
  table.types.getD id {}

def signature (table : TypeTable) (id : SigId) : SigData :=
  table.sigs.getD id {}

def isValidType (table : TypeTable) (id : TypeId) : Bool :=
  decide (0 < id) && decide (id < table.types.length)

def isValidSig (table : TypeTable) (id : SigId) : Bool :=
  decide (0 < id) && decide (id < table.sigs.length)

def isVoid (table : TypeTable) (id : TypeId) : Bool :=
  (table.type id).kind == .void

def isInt (table : TypeTable) (id : TypeId) : Bool :=
  (table.type id).kind == .int

def isFloat (table : TypeTable) (id : TypeId) : Bool :=
  (table.type id).kind == .float

def isPtr (table : TypeTable) (id : TypeId) : Bool :=
  (table.type id).kind == .ptr

def isScalar (table : TypeTable) (id : TypeId) : Bool :=
  table.isInt id || table.isFloat id || table.isPtr id

def intWidth (table : TypeTable) (id : TypeId) : ℕ :=
  (table.type id).intWidth

def intern (table : TypeTable) (data : TypeData) : TypeId × TypeTable :=
  match (table.types.drop 1).idxOf? data with
  | some index => (index + 1, table)
  | none => (table.types.length, { table with types := table.types ++ [data] })

def getInt (table : TypeTable) (bitWidth : ℕ) : TypeId × TypeTable :=
  table.intern { kind := .int, intWidth := bitWidth }

def getFloat (table : TypeTable) (kind : FloatKind) : TypeId × TypeTable :=
  table.intern { kind := .float, floatKind := kind }

def getPtr (table : TypeTable) (addressSpace : ℕ) : TypeId × TypeTable :=
  table.intern { kind := .ptr, addressSpace }

/-- Interning a signature; a signature without variadic part names all its
parameters as fixed ones. -/
def getSignature (table : TypeTable) (sig : SigData) : SigId × TypeTable :=
  let sig :=
    if sig.isVariadic then sig
    else { sig with fixedParamCount := sig.params.length }
  match (table.sigs.drop 1).idxOf? sig with
  | some index => (index + 1, table)
  | none => (table.sigs.length, { table with sigs := table.sigs ++ [sig] })

/-- What interning produces from the table every module starts from. -/
inductive Built : TypeTable → Prop
  | new : Built initial
  | getInt {table : TypeTable} (bitWidth : ℕ) : Built table → Built (table.getInt bitWidth).2
  | getFloat {table : TypeTable} (kind : FloatKind) : Built table → Built (table.getFloat kind).2
  | getPtr {table : TypeTable} (addressSpace : ℕ) : Built table →
      Built (table.getPtr addressSpace).2
  | getSignature {table : TypeTable} (sig : SigData) : Built table →
      Built (table.getSignature sig).2

theorem intern_types (table : TypeTable) (data : TypeData) :
    ∃ added, (table.intern data).2.types = table.types ++ added := by
  rw [intern]
  split
  · exact ⟨[], (List.append_nil _).symm⟩
  · exact ⟨[data], rfl⟩

/-- The named types stay where the constructor of the table puts them. -/
theorem Built.preloaded {table : TypeTable} (built : table.Built) :
    ∃ added, table.types = initial.types ++ added := by
  have grow : ∀ {table : TypeTable} (data : TypeData),
      (∃ added, table.types = initial.types ++ added) →
      ∃ added, (table.intern data).2.types = initial.types ++ added := by
    rintro table data ⟨added, types⟩
    obtain ⟨more, grown⟩ := table.intern_types data
    exact ⟨added ++ more, by rw [grown, types, List.append_assoc]⟩
  induction built with
  | new => exact ⟨[], (List.append_nil _).symm⟩
  | getInt bitWidth _ ih | getFloat kind _ ih | getPtr addressSpace _ ih => exact grow _ ih
  | getSignature sig _ ih =>
    rw [TypeTable.getSignature]
    split <;> exact ih

theorem Built.type_eq {table : TypeTable} (built : table.Built) {id : TypeId}
    (named : id < initial.types.length) : table.type id = initial.type id := by
  obtain ⟨added, types⟩ := built.preloaded
  rw [type, type, types, List.getD_append _ _ _ _ named]

def spelling (table : TypeTable) (id : TypeId) : String :=
  let data := table.type id
  match data.kind with
  | .void => "void"
  | .int => "i" ++ toString data.intWidth
  | .float =>
    match data.floatKind with
    | .f32 => "f32"
    | .f64 => "f64"
    | .f128 => "f128"
    | .f80 => "f80"
  | .ptr =>
    if data.addressSpace = 0 then "ptr"
    else "ptr(" ++ toString data.addressSpace ++ ")"

end TypeTable

end Aburi.Air
