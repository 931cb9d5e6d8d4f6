import Aburi.Cir.Types
import Mathlib.Algebra.Ring.Nat

/-!
# Comparing implicit conversion sequences

`Session::compare_implicit_conversion_sequences`.  The result is positive when the
first sequence is better, negative when the second is, and zero when neither is.  Each
tie-breaker is a comparison of its own; a later one is only asked when the earlier ones
are undecided.

What the session knows of types is given by `ConversionFile`.  The analysis of
qualification conversions and of function pointer conversions are parameters.
-/

namespace Aburi.Collect

open Aburi.Cir (TypeId EntityId TypeRef FunctionRefQualifierKind)

inductive ConversionRank where
  | exact | promotion | conversion | userDefined | ellipsis | bad
  deriving DecidableEq

inductive TrailingBinding where
  | none | lvalueReference | rvalueReference
  deriving DecidableEq

inductive ValueCategory where
  | invalid | prValue | lValue | xValue | functionDesignator | overloadDesignator
  | qualifiedMember | memberPointerDesignator | memberFunctionPointerCallee | type
  | initList | dependent
  deriving DecidableEq

inductive ListInitializationDestination where
  | invalid | scalar | reference | array | aggregate | classConstructor | initializerList
  deriving DecidableEq

namespace StandardConversionStep

def functionPointerConversion : UInt16 := 128
def qualificationAdjustment : UInt16 := 256
def derivedToBase : UInt16 := 512
def referenceBinding : UInt16 := 1024

end StandardConversionStep

structure StandardConversionSequence where
  source : TypeRef := {}
  target : TypeRef := {}
  sourceCategory : ValueCategory := .invalid
  steps : UInt16 := 0
  boundReferred : TypeId := {}
  boundQualifiers : UInt8 := 0
  trailingBinding : TrailingBinding := .none

def StandardConversionSequence.has (sequence : StandardConversionSequence)
    (step : UInt16) : Bool :=
  sequence.steps &&& step != 0

/-- A plan for a braced list; of its elements only the number is read here. -/
structure ListInitializationPlan where
  destination : ListInitializationDestination
  target : TypeRef
  elements : ℕ

structure ConversionDetail where
  standard : StandardConversionSequence := {}
  userConversion : EntityId := {}
  userConversionUnique : Bool := false
  trailingStandard : StandardConversionSequence := {}
  listPlan : Option ListInitializationPlan := none

structure FunctionTypePayload where
  returnType : TypeRef := {}
  parameters : List TypeRef := []
  parameterPackFlags : List Bool := []
  isVariadic : Bool := false
  memberIsConst : Bool := false
  memberIsVolatile : Bool := false
  memberRefQualifier : FunctionRefQualifierKind := .none
  callingConvention : ℕ := 0

/-- A resolved type as far as overload resolution looks into it. -/
inductive TypeShape where
  | void
  | bool
  | pointer (pointee : TypeId)
  | memberPointer (classType : TypeId)
  | lvalueReference (referred : TypeRef)
  | rvalueReference (referred : TypeRef)
  | array (element : TypeId) (size : Option ℕ)
  | function (payload : FunctionTypePayload)
  | record
  | other

/-- The classes of a file.  A class is complete before another derives from it, so that
its depth is smaller. -/
structure ClassGraph where
  /-- the types of the base subobjects that are no virtual bases -/
  directBases : TypeId → List TypeId
  virtualBases : TypeId → List TypeId
  depth : TypeId → ℕ
  direct_lt : ∀ derived, ∀ base ∈ directBases derived, depth base < depth derived
  virtual_lt : ∀ derived, ∀ base ∈ virtualBases derived, depth base < depth derived

structure QualificationConversionAnalysis where
  hasIndirection : Bool
  similar : Bool
  allowed : Bool

structure ConversionFile where
  resolvedType : TypeId → TypeId
  /-- nothing for a type that is not valid -/
  shape : TypeId → Option TypeShape
  classes : ClassGraph
  analyzeQualificationConversion : TypeRef → TypeRef → QualificationConversionAnalysis
  functionPointerConversionMatches : TypeRef → TypeRef → Bool

namespace ClassGraph

variable (graph : ClassGraph)

/-- The ways down the base subobjects of a class to a base. -/
def directRoutes (base : TypeId) : ℕ → TypeId → ℕ
  | 0, _ => 0
  | fuel + 1, current =>
    ((graph.directBases current).map fun next =>
      if next = base then 1 else directRoutes base fuel next).sum

def routes (derived base : TypeId) : ℕ :=
  graph.directRoutes base (graph.depth derived) derived +
    ((graph.virtualBases derived).map fun next =>
      if next = base then 1 else graph.directRoutes base (graph.depth next) next).sum

end ClassGraph

inductive DerivedToBasePathKind where
  | notFound | unique | ambiguous
  deriving DecidableEq

/-- The first of two comparisons that is decided. -/
def orElse (first second : ℤ) : ℤ :=
  if first ≠ 0 then first else second

namespace ConversionFile

variable (file : ConversionFile)

/-- `Session::analyze_derived_to_base_path`, without the path itself. -/
def analyzeDerivedToBasePath (derivedType baseType : TypeId) : DerivedToBasePathKind :=
  let derived := file.resolvedType derivedType
  let base := file.resolvedType baseType
  if file.shape derived |>.isNone then .notFound
  else if file.shape base |>.isNone then .notFound
  else if derived = base then .notFound
  else
    match file.classes.routes derived base with
    | 0 => .notFound
    | 1 => .unique
    | _ => .ambiguous

def derivedToBasePath (derived base : TypeId) : Bool :=
  file.analyzeDerivedToBasePath derived base = .unique

def isRecordKind (type : TypeId) : Bool :=
  match file.shape (file.resolvedType type) with
  | some .record => true
  | _ => false

def isBoolType (type : TypeId) : Bool :=
  match file.shape (file.resolvedType type) with
  | some .bool => true
  | _ => false

def isVoidType (type : TypeId) : Bool :=
  match file.shape (file.resolvedType type) with
  | some .void => true
  | _ => false

def isFunctionType (type : TypeId) : Bool :=
  match file.shape (file.resolvedType type) with
  | some (.function _) => true
  | _ => false

def isLvalueReference (type : TypeId) : Bool :=
  match file.shape (file.resolvedType type) with
  | some (.lvalueReference _) => true
  | _ => false

def isRvalueReference (type : TypeId) : Bool :=
  match file.shape (file.resolvedType type) with
  | some (.rvalueReference _) => true
  | _ => false

def functionPayloadOf (type : TypeId) : Option FunctionTypePayload :=
  match file.shape (file.resolvedType type) with
  | some (.function payload) => some payload
  | _ => none

def pointeeType (ref : TypeRef) : TypeId :=
  match file.shape (file.resolvedType ref.type) with
  | some (.pointer pointee) => file.resolvedType pointee
  | _ => {}

def memberPointerClass (ref : TypeRef) : TypeId :=
  match file.shape (file.resolvedType ref.type) with
  | some (.memberPointer classType) => file.resolvedType classType
  | _ => {}

def isDerivedFrom (derived base : TypeId) : Bool :=
  file.isRecordKind derived && file.isRecordKind base &&
    file.resolvedType derived != file.resolvedType base &&
    file.analyzeDerivedToBasePath derived base != .notFound

def compareArrays (lhs rhs : ListInitializationPlan) : ℤ :=
  match file.shape (file.resolvedType lhs.target.type),
      file.shape (file.resolvedType rhs.target.type) with
  | some (.array lhsElement lhsSize), some (.array rhsElement rhsSize) =>
    if file.resolvedType lhsElement = file.resolvedType rhsElement then
      let lhsCount := lhsSize.getD lhs.elements
      let rhsCount := rhsSize.getD rhs.elements
      orElse (if lhsCount ≠ rhsCount then if lhsCount < rhsCount then 1 else -1 else 0)
        (if lhsSize.isSome ≠ rhsSize.isSome then if lhsSize.isSome then 1 else -1 else 0)
    else 0
  | _, _ => 0

def comparePlans (lhs rhs : ConversionDetail) : ℤ :=
  match lhs.listPlan, rhs.listPlan with
  | some lhsPlan, some rhsPlan =>
    if lhsPlan.destination ≠ rhsPlan.destination then
      if lhsPlan.destination = .initializerList then 1
      else if rhsPlan.destination = .initializerList then -1
      else 0
    else if lhsPlan.destination = .array then file.compareArrays lhsPlan rhsPlan
    else 0
  | _, _ => 0

def compareRanks (lhs rhs : ConversionRank) : ℤ :=
  if lhs ≠ rhs then if lhs.ctorIdx < rhs.ctorIdx then 1 else -1 else 0

def hasAdjustment (sequence : StandardConversionSequence) : Bool :=
  sequence.has StandardConversionStep.qualificationAdjustment ||
    sequence.has StandardConversionStep.functionPointerConversion

def standardAdjustmentExtends (base adjusted : ConversionDetail) : Bool :=
  if hasAdjustment base.standard || !hasAdjustment adjusted.standard ||
      !base.standard.target.type.valid || !adjusted.standard.target.type.valid then
    false
  else
    let qualification := file.analyzeQualificationConversion base.standard.target
      adjusted.standard.target
    (qualification.hasIndirection && qualification.similar && qualification.allowed) ||
      file.functionPointerConversionMatches base.standard.target adjusted.standard.target

def compareAdjustments (lhs rhs : ConversionDetail) : ℤ :=
  if file.standardAdjustmentExtends lhs rhs then 1
  else if file.standardAdjustmentExtends rhs lhs then -1
  else 0

def lessQualified (first second : TypeRef) : Bool :=
  let analysis := file.analyzeQualificationConversion first second
  analysis.hasIndirection && analysis.similar && analysis.allowed

/-- The sequences differ in a qualification adjustment at most. -/
def qualificationComparable (a b : StandardConversionSequence) : Bool :=
  let step := StandardConversionStep.qualificationAdjustment
  a.source.type.valid && a.source == b.source && a.target.type.valid &&
    b.target.type.valid && a.target != b.target && (a.steps ||| b.steps) &&& step != 0 &&
    a.steps &&& ~~~step == b.steps &&& ~~~step

def qualificationYieldCompare (a b : StandardConversionSequence) : ℤ :=
  if qualificationComparable a b then
    if file.lessQualified a.target b.target = file.lessQualified b.target a.target then 0
    else if file.lessQualified a.target b.target then 1
    else -1
  else 0

/-- The better one is derived from the other. -/
def compareDerived (a b : TypeId) : ℤ :=
  if file.isDerivedFrom a b then 1
  else if file.isDerivedFrom b a then -1
  else 0

/-- A conversion to `bool` is worse than one that is not. -/
def compareToBool (aFrom bFrom : TypeId) (a b : StandardConversionSequence) : ℤ :=
  let aToBool := aFrom.valid && file.isBoolType a.target.type
  let bToBool := bFrom.valid && file.isBoolType b.target.type
  if aToBool ≠ bToBool then if aToBool then -1 else 1 else 0

def compareMemberPointers (a b : StandardConversionSequence) : ℤ :=
  let aSource := file.memberPointerClass a.source
  let bSource := file.memberPointerClass b.source
  let aTarget := file.memberPointerClass a.target
  let bTarget := file.memberPointerClass b.target
  if aSource.valid && bSource.valid && aTarget.valid && bTarget.valid then
    orElse (if aSource = bSource then file.compareDerived bTarget aTarget else 0)
      (if aTarget = bTarget then file.compareDerived aSource bSource else 0)
  else 0

def comparePointers (a b : StandardConversionSequence) : ℤ :=
  let aSource := file.pointeeType a.source
  let bSource := file.pointeeType b.source
  let aTarget := file.pointeeType a.target
  let bTarget := file.pointeeType b.target
  if aSource.valid && bSource.valid && aTarget.valid && bTarget.valid then
    orElse
      (if aSource = bSource then
        if file.isVoidType aTarget ≠ file.isVoidType bTarget then
          if file.isVoidType aTarget then -1 else 1
        else if !file.isVoidType aTarget then file.compareDerived aTarget bTarget
        else 0
      else 0)
      (if aTarget = bTarget then file.compareDerived bSource aSource else 0)
  else 0

def compareRecords (a b : StandardConversionSequence) : ℤ :=
  let aSource := file.resolvedType a.source.type
  let bSource := file.resolvedType b.source.type
  let aTarget := file.resolvedType a.target.type
  let bTarget := file.resolvedType b.target.type
  orElse
    (if aSource = bSource ∧ file.isRecordKind aTarget ∧ file.isRecordKind bTarget then
      file.compareDerived aTarget bTarget
    else 0)
    (if aTarget = bTarget ∧ file.isRecordKind aSource ∧ file.isRecordKind bSource then
      file.compareDerived bSource aSource
    else 0)

def hierarchyStandardCompare (a b : StandardConversionSequence) : ℤ :=
  if a.source.type.valid && b.source.type.valid && a.target.type.valid &&
      b.target.type.valid then
    orElse (file.compareToBool (file.pointeeType a.source) (file.pointeeType b.source) a b)
      (orElse
        (file.compareToBool (file.memberPointerClass a.source)
          (file.memberPointerClass b.source) a b)
        (orElse (file.compareMemberPointers a b)
          (orElse (file.comparePointers a b) (file.compareRecords a b))))
  else 0

/-- Both sequences bind references, to values of one category. -/
def bindReferences (a b : StandardConversionSequence) : Bool :=
  a.has StandardConversionStep.referenceBinding &&
    b.has StandardConversionStep.referenceBinding &&
    (file.isLvalueReference a.target.type || file.isRvalueReference a.target.type) &&
    (file.isLvalueReference b.target.type || file.isRvalueReference b.target.type) &&
    a.sourceCategory == b.sourceCategory

def compareRvalueBindings (a b : StandardConversionSequence) : ℤ :=
  if file.bindReferences a b &&
      (a.sourceCategory == .prValue || a.sourceCategory == .xValue) &&
      file.isRvalueReference a.target.type != file.isRvalueReference b.target.type then
    if file.isRvalueReference a.target.type then 1 else -1
  else 0

def sourceIsLvalueFunction (a : StandardConversionSequence) : Bool :=
  (a.sourceCategory == .lValue || a.sourceCategory == .functionDesignator) &&
    file.isFunctionType a.source.type

/-- Only the source of the first sequence is asked whether it is a function. -/
def compareFunctionBindings (a b : StandardConversionSequence) : ℤ :=
  if file.bindReferences a b && file.sourceIsLvalueFunction a &&
      file.isLvalueReference a.target.type != file.isLvalueReference b.target.type then
    if file.isLvalueReference a.target.type then 1 else -1
  else 0

def sameUserConversion (lhs rhs : ConversionDetail) : Bool :=
  lhs.userConversionUnique && rhs.userConversionUnique && lhs.userConversion == rhs.userConversion

def sameAggregateInitialization (lhs rhs : ConversionDetail) : Bool :=
  match lhs.listPlan, rhs.listPlan with
  | some lhsPlan, some rhsPlan =>
    lhsPlan.destination == .aggregate && rhsPlan.destination == .aggregate &&
      file.resolvedType lhsPlan.target.type == file.resolvedType rhsPlan.target.type
  | _, _ => false

def compareTrailing (lhs rhs : ConversionDetail) : ℤ :=
  let lhsBinding := lhs.trailingStandard.trailingBinding
  let rhsBinding := rhs.trailingStandard.trailingBinding
  if lhsBinding ≠ rhsBinding ∧ lhsBinding ≠ .none ∧ rhsBinding ≠ .none then
    if lhsBinding = .rvalueReference then 1 else -1
  else 0

def compareBound (lhs rhs : StandardConversionSequence) : ℤ :=
  if lhs.boundReferred.valid ∧ lhs.boundReferred = rhs.boundReferred ∧
      lhs.boundQualifiers ≠ rhs.boundQualifiers then
    if lhs.boundQualifiers &&& ~~~rhs.boundQualifiers = 0 then 1
    else if rhs.boundQualifiers &&& ~~~lhs.boundQualifiers = 0 then -1
    else 0
  else 0

/-- The last tie-breakers. -/
def compareFinal (rank : ConversionRank) (lhs rhs : ConversionDetail) : ℤ :=
  if rank = .userDefined then
    if !sameUserConversion lhs rhs && !file.sameAggregateInitialization lhs rhs then 0
    else orElse (compareTrailing lhs rhs) (compareBound lhs.standard rhs.standard)
  else compareBound lhs.standard rhs.standard

/-- The tie-breakers before the bindings of functions. -/
def compareEarly (lhsRank : ConversionRank) (lhs : ConversionDetail)
    (rhsRank : ConversionRank) (rhs : ConversionDetail)
    (implicitObjectParameter : Bool) : ℤ :=
  orElse (file.comparePlans lhs rhs)
    (orElse (compareRanks lhsRank rhsRank)
      (orElse (file.compareAdjustments lhs rhs)
        (orElse (file.qualificationYieldCompare lhs.standard rhs.standard)
          (if implicitObjectParameter then 0
          else
            orElse (file.hierarchyStandardCompare lhs.standard rhs.standard)
              (file.compareRvalueBindings lhs.standard rhs.standard)))))

/-- `Session::compare_implicit_conversion_sequences` -/
def compareImplicitConversionSequences (lhsRank : ConversionRank) (lhs : ConversionDetail)
    (rhsRank : ConversionRank) (rhs : ConversionDetail)
    (implicitObjectParameter : Bool) : ℤ :=
  orElse (file.compareEarly lhsRank lhs rhsRank rhs implicitObjectParameter)
    (orElse
      (if implicitObjectParameter then 0
      else file.compareFunctionBindings lhs.standard rhs.standard)
      (file.compareFinal lhsRank lhs rhs))

end ConversionFile

end Aburi.Collect
