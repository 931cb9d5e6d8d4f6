import Aburi.Lib.HashCons
import Aburi.Numeric.FloatingPoint

/-!
# Types of the CIR

Type payloads, template arguments and the value expressions of templates.
Records refer to each other through handles into the tables of a file.  The
fields of a template argument and of an expression node that hold no further
arguments are kept in records of their own, beside the nested ones.

Source locations and the lookup context of an expression are only carried
along by the code below and are left out.
-/

namespace Aburi.Cir

open Aburi.Lib (Handle)
open Aburi.Numeric (FloatValue)

inductive NameTag
inductive TypeTag
inductive EntityTag
inductive InstTag
inductive ValueExprTag
inductive ConstantStateTag
inductive ClosureIdentityTag

abbrev NameId := Handle NameTag
abbrev TypeId := Handle TypeTag
abbrev EntityId := Handle EntityTag
abbrev InstId := Handle InstTag
abbrev ValueExprId := Handle ValueExprTag
abbrev ConstantStateId := Handle ConstantStateTag
abbrev ClosureIdentityId := Handle ClosureIdentityTag

inductive MemorySpace where
  | default | generic | global | constant | workgroup | privateSpace | function
  deriving DecidableEq

structure TypeRef where
  type : TypeId := {}
  qualifiers : UInt8 := 0
  memorySpace : MemorySpace := .default
  deriving DecidableEq

inductive TypeKind where
  | invalid | error | unknown | builtin | pointer | blockPointer | memberPointer
  | lvalueReference | rvalueReference | array | function | record | enum | vector
  | complex | bitInt | typedef | typeParam | templateSpecialization
  | aliasSpecialization | dependentName | dependent | placeholder | auto | typeofExpr
  | decltypeExpr | builtinTransform | builtinPackElement | packIndex | place
  deriving DecidableEq

inductive BuiltinTypeKind where
  | void | nullPtr | bool | char | schar | uchar | wchar | char8 | char16 | char32
  | short | ushort | int | uint | long | ulong | longLong | ulongLong | int128
  | uint128 | usize | float16 | float | double | longDouble | metaInfo | other
  deriving DecidableEq

inductive MetaInfoKind where
  | null | type | entity | namespaceOf | template | value
  deriving DecidableEq

inductive ReferenceKind where
  | lvalue | rvalue
  deriving DecidableEq

inductive ArraySizeKind where
  | incomplete | constant | variableSize
  deriving DecidableEq

inductive FunctionExceptionSpecKind where
  | potentiallyThrowing | nonThrowing | dependent
  deriving DecidableEq

inductive FunctionRefQualifierKind where
  | none | lvalue | rvalue
  deriving DecidableEq

inductive CallingConventionKind where
  | default
  deriving DecidableEq

inductive AutoTypeFlavor where
  | gnu | cxx | templateNonType | decltypeAuto | decltypeAutoTemplateNonType
  deriving DecidableEq

inductive BuiltinTypeTransformKind where
  | removeConst | removeVolatile | removeCV | removeCVRef | removeReference
  | underlyingType | removeExtent | removeAllExtents | decay | addPointer
  | addLValueReference | addRValueReference
  deriving DecidableEq

inductive DecltypeOperandCategory where
  | unknown | prvalue | lvalue | xvalue | functionDesignator | memberPointerDesignator
  deriving DecidableEq

inductive TemplateArgumentKind where
  | type | value | template
  deriving DecidableEq

inductive TemplateGeneratedPackKind where
  | none | integerSequence
  deriving DecidableEq

inductive TemplateValueKind where
  | none | integer | boolean | floating | null | address | memberPointer | closure
  | structuralObject | metaInfo
  deriving DecidableEq

inductive TemplateNullKind where
  | none | nullptr | pointer | memberPointer
  deriving DecidableEq

inductive TemplateValueExprKind where
  | none | integer | parameter | packSize | entity | unary | binary | conditional
  | cast | sizeofType | alignofType | typeTrait | typeOperand | callee | call
  | noexcept | conceptId | packIndex | fold
  deriving DecidableEq

inductive TemplateValueFoldKind where
  | none | unaryLeft | unaryRight | binaryLeft | binaryRight
  deriving DecidableEq

inductive TemplateValueExprOp where
  | none | add | sub | mul | div | mod | shl | shr | bitAnd | bitOr | bitXor | less
  | lessEqual | greater | greaterEqual | equal | notEqual | threeWay | logicalAnd
  | logicalOr | comma | unaryPlus | unaryMinus | logicalNot | bitwiseNot | dereference
  | memberPointerDot | memberPointerArrow | delete | deleteArray | addressOf
  deriving DecidableEq

inductive BuiltinTypeTraitKind where
  | none | isSame | isFunction | isReference | isLValueReference | isRValueReference
  | hasVirtualDestructor | isAbstract | isArray | isBoundedArray | isUnion | isVolatile
  | isConst | isEmpty | isEnum | isScopedEnum | isFundamental | isIntegral | isUnsigned
  | isAssignable | isTriviallyAssignable | isNothrowAssignable | isBaseOf | isClass
  | isFinal | isAggregate | isMemberPointer | isMemberObjectPointer
  | isMemberFunctionPointer | isNullPointer | isObject | isPointer | isPolymorphic
  | isStandardLayout | isTrivial | isTriviallyCopyable | hasUniqueObjectRepresentations
  | isPod | isSigned | isConstructible | isTriviallyConstructible
  | isNothrowConstructible | isConvertible | isCoreConvertible | isNothrowConvertible
  | isDestructible | isTriviallyDestructible | hasTrivialDestructor
  | referenceBindsToTemporary | isVoid | isNothrowDestructible | isFloatingPoint
  | isArithmetic | isScalar | isCompound | isLiteralType
  deriving DecidableEq

structure IntegerValue where
  lowBits : UInt64 := 0
  highBits : UInt64 := 0
  bitWidth : UInt16 := 64
  isUnsigned : Bool := false
  deriving DecidableEq

def templateValueExprNoNode : UInt32 := 0xFFFFFFFF

def templateValueExprNoParameter : UInt32 := 0xFFFFFFFF

def noExtentParam : UInt32 := 0xFFFFFFFF

inductive TemplateValuePackKind where
  | function | type | value | template
  deriving DecidableEq

structure TemplateValuePackReference where
  kind : TemplateValuePackKind := .type
  declaration : EntityId := {}
  owner : EntityId := {}
  depth : UInt32 := 0
  index : UInt32 := templateValueExprNoParameter
  parameterType : TypeId := {}
  name : NameId := {}

structure TemplateValueExprNodeFields where
  kind : TemplateValueExprKind := .none
  op : TemplateValueExprOp := .none
  traitKind : BuiltinTypeTraitKind := .none
  foldKind : TemplateValueFoldKind := .none
  value : Int64 := 0
  integerValue : IntegerValue := {}
  parameterIndex : UInt32 := templateValueExprNoParameter
  lhs : UInt32 := templateValueExprNoNode
  rhs : UInt32 := templateValueExprNoNode
  third : UInt32 := templateValueExprNoNode
  operands : List UInt32 := []
  expandsParameterPack : Bool := false
  packReferences : List TemplateValuePackReference := []
  type : TypeId := {}
  resultType : TypeRef := {}
  entity : EntityId := {}
  name : NameId := {}
  qualifierType : TypeRef := {}
  semanticKey : String := ""

structure TemplateArgumentFields where
  kind : TemplateArgumentKind := .type
  type : TypeRef := {}
  valueType : TypeRef := {}
  valueKind : TemplateValueKind := .none
  nullKind : TemplateNullKind := .none
  integerValue : IntegerValue := {}
  floatingValue : FloatValue := {}
  valueSpelling : String := ""
  valueEntity : EntityId := {}
  closureIdentity : ClosureIdentityId := {}
  valueByteOffset : Int64 := 0
  metaKind : MetaInfoKind := .null
  valueParamIndex : UInt32 := noExtentParam
  generatedPackKind : TemplateGeneratedPackKind := .none
  generatedPackCountType : TypeRef := {}
  dependentValueQualifier : TypeRef := {}
  dependentValueName : NameId := {}
  templateEntity : EntityId := {}
  templateParamIndex : UInt32 := noExtentParam
  dependentTemplateQualifier : TypeRef := {}
  isDependent : Bool := false
  isDefaulted : Bool := false
  expandsParameterPack : Bool := false
  expandsPackPattern : Bool := false
  templateName : NameId := {}
  constantState : ConstantStateId := {}

mutual

inductive TemplateArgument where
  | mk (fields : TemplateArgumentFields) (valueElements : List TemplateArgument)
      (dependentValueExpr generatedPackCountExpr : TemplateValueExpression)
      (unconvertedValueAlternative : Option TemplateArgument)

inductive TemplateValueExpression where
  | mk (nodes : List TemplateValueExprNode) (root : UInt32) (canonicalId : ValueExprId)

inductive TemplateValueExprNode where
  | mk (fields : TemplateValueExprNodeFields) (templateArguments : List TemplateArgument)

end

namespace TemplateValueExpression

def nodes : TemplateValueExpression → List TemplateValueExprNode
  | .mk nodes _ _ => nodes

def root : TemplateValueExpression → UInt32
  | .mk _ root _ => root

def canonicalId : TemplateValueExpression → ValueExprId
  | .mk _ _ canonicalId => canonicalId

def withCanonicalId : TemplateValueExpression → ValueExprId → TemplateValueExpression
  | .mk nodes root _, canonicalId => .mk nodes root canonicalId

def valid (expression : TemplateValueExpression) : Bool :=
  expression.root != templateValueExprNoNode &&
    decide (expression.root.toNat < expression.nodes.length)

/-- An expression that was never set. -/
def empty : TemplateValueExpression := .mk [] templateValueExprNoNode {}

end TemplateValueExpression

/-- An argument that is no expression and has no elements. -/
def TemplateArgument.plain (fields : TemplateArgumentFields) : TemplateArgument :=
  .mk fields [] .empty .empty none

@[ext]
structure BuiltinTypePayload where
  kind : BuiltinTypeKind := .int
  spelling : String := ""
  widthOverride : Int64 := -1
  rankOverride : Int32 := -1
  unsignedOverride : Int8 := -1

structure MemberPointerTypePayload where
  classType : TypeRef
  memberType : TypeRef

structure ReferenceTypePayload where
  referredType : TypeRef
  referenceKind : ReferenceKind := .lvalue

structure ArrayTypePayload where
  elementType : TypeRef
  sizeKind : ArraySizeKind := .incomplete
  size : Option UInt64 := none
  sizeExpr : InstId := {}
  sizeExprIsDependent : Bool := false
  extentParam : UInt32 := noExtentParam
  dependentSizeExpr : TemplateValueExpression := .empty

structure FunctionExceptionSpec where
  kind : FunctionExceptionSpecKind := .potentiallyThrowing
  predicate : TemplateValueExpression := .empty

structure FunctionTypePayload where
  returnType : TypeRef
  parameters : List TypeRef := []
  parameterPackFlags : List UInt8 := []
  isVariadic : Bool := false
  hasPrototype : Bool := true
  memberRefQualifier : FunctionRefQualifierKind := .none
  memberIsConst : Bool := false
  memberIsVolatile : Bool := false
  exceptionSpec : FunctionExceptionSpec := {}
  callingConvention : CallingConventionKind := .default

structure RecordTypePayload where
  entity : EntityId := {}
  name : NameId := {}
  isUnion : Bool := false
  isIncomplete : Bool := false

structure EnumTypePayload where
  entity : EntityId := {}
  name : NameId := {}
  isScoped : Bool := false
  isIncomplete : Bool := false
  hasFixedUnderlyingType : Bool := false
  underlyingType : TypeRef := {}

structure VectorTypePayload where
  elementType : TypeRef
  elementCount : UInt32 := 0
  sizeBytes : UInt64 := 0

@[ext]
structure BitIntTypePayload where
  bits : UInt32 := 0
  isUnsigned : Bool := false

structure TypedefTypePayload where
  entity : EntityId := {}
  name : NameId := {}
  underlyingType : TypeRef

structure TypeParamTypePayload where
  entity : EntityId := {}
  name : NameId := {}
  depth : UInt32 := 0
  index : UInt32 := 0
  isParameterPack : Bool := false

structure TemplateSpecializationTypePayload where
  templateName : NameId := {}
  primaryTemplate : EntityId := {}
  arguments : List TemplateArgument := []
  spliceOperand : TemplateValueExpression := .empty
  isDependent : Bool := false
  isClassTemplatePlaceholder : Bool := false

structure AliasSpecializationTypePayload where
  templateName : NameId := {}
  aliasTemplate : EntityId := {}
  arguments : List TemplateArgument := []
  associatedType : TypeRef := {}

structure DependentNameTypePayload where
  qualifierType : TypeRef := {}
  memberName : NameId := {}
  templateArguments : List TemplateArgument := []
  isCurrentInstantiation : Bool := false

structure DecltypeExprTypePayload where
  expr : InstId := {}
  useDeclaredTypeRule : Bool := false
  operandCategory : DecltypeOperandCategory := .unknown
  operandType : TypeRef := {}
  dependentValueQualifier : TypeRef := {}
  dependentValueName : NameId := {}
  operandExpression : TemplateValueExpression := .empty

structure BuiltinTypeTransformTypePayload where
  transformKind : BuiltinTypeTransformKind := .removeCV
  operandType : TypeRef := {}

structure PackIndexTypePayload where
  packType : TypeRef := {}
  indexExpression : TemplateValueExpression := .empty
  expansions : List TypeRef := []
  fullySubstituted : Bool := false

inductive TypePayload where
  | invalid
  | error
  | unknown (debugName : String)
  | builtin (payload : BuiltinTypePayload)
  | pointer (pointee : TypeRef)
  | blockPointer (pointee : TypeRef)
  | memberPointer (payload : MemberPointerTypePayload)
  | reference (payload : ReferenceTypePayload)
  | array (payload : ArrayTypePayload)
  | function (payload : FunctionTypePayload)
  | record (payload : RecordTypePayload)
  | enum (payload : EnumTypePayload)
  | vector (payload : VectorTypePayload)
  | complex (elementType : TypeRef)
  | bitInt (payload : BitIntTypePayload)
  | typedef (payload : TypedefTypePayload)
  | typeParam (payload : TypeParamTypePayload)
  | templateSpecialization (payload : TemplateSpecializationTypePayload)
  | aliasSpecialization (payload : AliasSpecializationTypePayload)
  | dependentName (payload : DependentNameTypePayload)
  | dependent (debugName : NameId)
  | placeholder
  | auto (flavor : AutoTypeFlavor)
  | typeofExpr (expr : InstId)
  | decltypeExpr (payload : DecltypeExprTypePayload)
  | builtinTransform (payload : BuiltinTypeTransformTypePayload)
  | builtinPackElement (arguments : List TemplateArgument)
  | packIndex (payload : PackIndexTypePayload)
  | place (objectType : TypeRef)

/-- A payload with the index of `lhs` needs one case only, that of the same constructor. -/
@[elab_as_elim]
theorem payload_same_constructor {lhs : TypePayload} {motive : TypePayload → Prop}
    (rhs : TypePayload) (sameIndex : lhs.ctorIdx = rhs.ctorIdx)
    (diagonal : TypePayload.ctorElimType (motive := motive) lhs.ctorIdx) : motive rhs :=
  TypePayload.ctorElim _ rhs sameIndex diagonal

/-- The record of a type in the table of types. -/
structure CirType where
  kind : TypeKind := .invalid
  payloadIndex : UInt32 := 0
  canonical : TypeId := {}
  desugared : TypeId := {}
  resolved : TypeId := {}
  dependency : UInt32 := 0
  debugName : NameId := {}

structure TypeSpec where
  kind : TypeKind := .invalid
  payload : TypePayload := .invalid
  debugName : NameId := {}
  canonical : TypeId := {}
  desugared : TypeId := {}
  resolved : TypeId := {}
  dependency : UInt32 := 0

def typePayloadKind : TypePayload → TypeKind
  | .invalid => .invalid
  | .error => .error
  | .unknown _ => .unknown
  | .builtin _ => .builtin
  | .pointer _ => .pointer
  | .blockPointer _ => .blockPointer
  | .memberPointer _ => .memberPointer
  | .reference payload =>
    if payload.referenceKind = .lvalue then .lvalueReference else .rvalueReference
  | .array _ => .array
  | .function _ => .function
  | .record _ => .record
  | .enum _ => .enum
  | .vector _ => .vector
  | .complex _ => .complex
  | .bitInt _ => .bitInt
  | .typedef _ => .typedef
  | .typeParam _ => .typeParam
  | .templateSpecialization _ => .templateSpecialization
  | .aliasSpecialization _ => .aliasSpecialization
  | .dependentName _ => .dependentName
  | .dependent _ => .dependent
  | .placeholder => .placeholder
  | .auto _ => .auto
  | .typeofExpr _ => .typeofExpr
  | .decltypeExpr _ => .decltypeExpr
  | .builtinTransform _ => .builtinTransform
  | .builtinPackElement _ => .builtinPackElement
  | .packIndex _ => .packIndex
  | .place _ => .place

def typeSpecMatchesPayload (spec : TypeSpec) : Bool :=
  typePayloadKind spec.payload == spec.kind

end Aburi.Cir
