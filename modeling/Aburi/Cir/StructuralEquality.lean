import Aburi.Cir.Types

/-!
# Structural hash and equality of types

The two recursions by which equal types are found again: the words that the
hash of a payload mixes, in the order it mixes them, and the comparison of two
payloads field by field.
-/

namespace Aburi.Cir

open Aburi.Lib (Handle)

def hashMix (hash value : UInt64) : UInt64 :=
  hash ^^^ (value + 0x9E3779B97F4A7C15 + (hash <<< (6 : UInt64)) + (hash >>> (2 : UInt64)))

def structuralIdValue {Tag : Type} (id : Handle Tag) : UInt64 :=
  if id.valid then (id.generation.toUInt64 <<< 32) ||| id.index.toUInt64 else 0

def idsStructurallyEqual {Tag : Type} (lhs rhs : Handle Tag) : Bool :=
  structuralIdValue lhs == structuralIdValue rhs

def refsStructurallyEqual (lhs rhs : TypeRef) : Bool :=
  idsStructurallyEqual lhs.type rhs.type && lhs.qualifiers == rhs.qualifiers &&
    lhs.memorySpace == rhs.memorySpace

/-- Sizes first, then entry by entry. -/
def listsEqual {α : Type} (equal : α → α → Bool) : List α → List α → Bool
  | [], [] => true
  | first :: firsts, second :: seconds => equal first second && listsEqual equal firsts seconds
  | _, _ => false

def TemplateValuePackReference.structurallyEqual (left right : TemplateValuePackReference) :
    Bool :=
  left.kind == right.kind && idsStructurallyEqual left.declaration right.declaration &&
    idsStructurallyEqual left.owner right.owner && left.depth == right.depth &&
    left.index == right.index && idsStructurallyEqual left.parameterType right.parameterType &&
    idsStructurallyEqual left.name right.name

def TemplateValueExprNodeFields.structurallyEqual (a b : TemplateValueExprNodeFields) : Bool :=
  a.kind == b.kind && a.op == b.op && a.traitKind == b.traitKind && a.foldKind == b.foldKind &&
    a.value == b.value && a.integerValue == b.integerValue &&
    a.parameterIndex == b.parameterIndex && a.lhs == b.lhs && a.rhs == b.rhs &&
    a.third == b.third && a.operands == b.operands &&
    a.expandsParameterPack == b.expandsParameterPack &&
    idsStructurallyEqual a.type b.type && refsStructurallyEqual a.resultType b.resultType &&
    idsStructurallyEqual a.entity b.entity && idsStructurallyEqual a.name b.name &&
    refsStructurallyEqual a.qualifierType b.qualifierType && a.semanticKey == b.semanticKey &&
    listsEqual TemplateValuePackReference.structurallyEqual a.packReferences b.packReferences

def TemplateArgumentFields.structurallyEqual (lhs rhs : TemplateArgumentFields) : Bool :=
  lhs.metaKind == rhs.metaKind && lhs.kind == rhs.kind &&
    refsStructurallyEqual lhs.type rhs.type &&
    refsStructurallyEqual lhs.valueType rhs.valueType && lhs.valueKind == rhs.valueKind &&
    lhs.integerValue == rhs.integerValue &&
    idsStructurallyEqual lhs.valueEntity rhs.valueEntity &&
    lhs.valueByteOffset == rhs.valueByteOffset && lhs.valueParamIndex == rhs.valueParamIndex &&
    refsStructurallyEqual lhs.dependentValueQualifier rhs.dependentValueQualifier &&
    idsStructurallyEqual lhs.dependentValueName rhs.dependentValueName &&
    lhs.generatedPackKind == rhs.generatedPackKind &&
    refsStructurallyEqual lhs.generatedPackCountType rhs.generatedPackCountType &&
    idsStructurallyEqual lhs.templateEntity rhs.templateEntity &&
    lhs.templateParamIndex == rhs.templateParamIndex &&
    refsStructurallyEqual lhs.dependentTemplateQualifier rhs.dependentTemplateQualifier &&
    idsStructurallyEqual lhs.templateName rhs.templateName &&
    lhs.isDependent == rhs.isDependent && lhs.isDefaulted == rhs.isDefaulted &&
    lhs.expandsParameterPack == rhs.expandsParameterPack &&
    lhs.valueSpelling == rhs.valueSpelling

mutual

def templateArgumentsStructurallyEqual : TemplateArgument → TemplateArgument → Bool
  | .mk fields elements valueExpr countExpr _, .mk fields' elements' valueExpr' countExpr' _ =>
    fields.structurallyEqual fields' &&
      templateValueExprsStructurallyEqual valueExpr valueExpr' &&
      templateValueExprsStructurallyEqual countExpr countExpr' &&
      templateArgumentListsStructurallyEqual elements elements'
termination_by structural lhs => lhs

def templateArgumentListsStructurallyEqual :
    List TemplateArgument → List TemplateArgument → Bool
  | [], [] => true
  | lhs :: lhsRest, rhs :: rhsRest =>
    templateArgumentsStructurallyEqual lhs rhs &&
      templateArgumentListsStructurallyEqual lhsRest rhsRest
  | _, _ => false
termination_by structural lhs => lhs

def templateValueExprsStructurallyEqual :
    TemplateValueExpression → TemplateValueExpression → Bool
  | .mk nodes root _, .mk nodes' root' _ =>
    root == root' && templateValueExprNodesStructurallyEqual nodes nodes'
termination_by structural lhs => lhs

def templateValueExprNodesStructurallyEqual :
    List TemplateValueExprNode → List TemplateValueExprNode → Bool
  | [], [] => true
  | lhs :: lhsRest, rhs :: rhsRest =>
    templateValueExprNodeStructurallyEqual lhs rhs &&
      templateValueExprNodesStructurallyEqual lhsRest rhsRest
  | _, _ => false
termination_by structural lhs => lhs

/-- The body of the loop over the nodes of two expressions. -/
def templateValueExprNodeStructurallyEqual :
    TemplateValueExprNode → TemplateValueExprNode → Bool
  | .mk fields arguments, .mk fields' arguments' =>
    fields.structurallyEqual fields' && templateArgumentListsStructurallyEqual arguments arguments'
termination_by structural lhs => lhs

end

def payloadFieldsEqual : TypePayload → TypePayload → Bool
  | .invalid, .invalid => true
  | .error, .error => true
  | .placeholder, .placeholder => true
  | .unknown a, .unknown b => a == b
  | .builtin a, .builtin b =>
    a.kind == b.kind && a.spelling == b.spelling && a.widthOverride == b.widthOverride &&
      a.rankOverride == b.rankOverride && a.unsignedOverride == b.unsignedOverride
  | .pointer a, .pointer b => refsStructurallyEqual a b
  | .blockPointer a, .blockPointer b => refsStructurallyEqual a b
  | .memberPointer a, .memberPointer b =>
    refsStructurallyEqual a.classType b.classType && refsStructurallyEqual a.memberType b.memberType
  | .reference a, .reference b =>
    a.referenceKind == b.referenceKind && refsStructurallyEqual a.referredType b.referredType
  | .array a, .array b =>
    refsStructurallyEqual a.elementType b.elementType && a.sizeKind == b.sizeKind &&
      a.size == b.size && idsStructurallyEqual a.sizeExpr b.sizeExpr &&
      a.sizeExprIsDependent == b.sizeExprIsDependent && a.extentParam == b.extentParam &&
      templateValueExprsStructurallyEqual a.dependentSizeExpr b.dependentSizeExpr
  | .function a, .function b =>
    refsStructurallyEqual a.returnType b.returnType &&
      a.parameterPackFlags == b.parameterPackFlags && a.isVariadic == b.isVariadic &&
      a.hasPrototype == b.hasPrototype && a.memberRefQualifier == b.memberRefQualifier &&
      a.memberIsConst == b.memberIsConst && a.memberIsVolatile == b.memberIsVolatile &&
      a.exceptionSpec.kind == b.exceptionSpec.kind &&
      templateValueExprsStructurallyEqual a.exceptionSpec.predicate b.exceptionSpec.predicate &&
      a.callingConvention == b.callingConvention &&
      listsEqual refsStructurallyEqual a.parameters b.parameters
  | .record a, .record b =>
    idsStructurallyEqual a.entity b.entity && idsStructurallyEqual a.name b.name &&
      a.isUnion == b.isUnion && a.isIncomplete == b.isIncomplete
  | .enum a, .enum b =>
    idsStructurallyEqual a.entity b.entity && idsStructurallyEqual a.name b.name &&
      a.isScoped == b.isScoped && a.isIncomplete == b.isIncomplete &&
      a.hasFixedUnderlyingType == b.hasFixedUnderlyingType &&
      refsStructurallyEqual a.underlyingType b.underlyingType
  | .vector a, .vector b =>
    refsStructurallyEqual a.elementType b.elementType && a.elementCount == b.elementCount &&
      a.sizeBytes == b.sizeBytes
  | .complex a, .complex b => refsStructurallyEqual a b
  | .bitInt a, .bitInt b => a.bits == b.bits && a.isUnsigned == b.isUnsigned
  | .typedef a, .typedef b =>
    idsStructurallyEqual a.entity b.entity && idsStructurallyEqual a.name b.name &&
      refsStructurallyEqual a.underlyingType b.underlyingType
  | .typeParam a, .typeParam b =>
    idsStructurallyEqual a.entity b.entity && idsStructurallyEqual a.name b.name &&
      a.depth == b.depth && a.index == b.index && a.isParameterPack == b.isParameterPack
  | .templateSpecialization a, .templateSpecialization b =>
    idsStructurallyEqual a.templateName b.templateName &&
      idsStructurallyEqual a.primaryTemplate b.primaryTemplate &&
      templateValueExprsStructurallyEqual a.spliceOperand b.spliceOperand &&
      a.isDependent == b.isDependent &&
      a.isClassTemplatePlaceholder == b.isClassTemplatePlaceholder &&
      templateArgumentListsStructurallyEqual a.arguments b.arguments
  | .aliasSpecialization a, .aliasSpecialization b =>
    idsStructurallyEqual a.templateName b.templateName &&
      idsStructurallyEqual a.aliasTemplate b.aliasTemplate &&
      templateArgumentListsStructurallyEqual a.arguments b.arguments &&
      refsStructurallyEqual a.associatedType b.associatedType
  | .dependentName a, .dependentName b =>
    refsStructurallyEqual a.qualifierType b.qualifierType &&
      idsStructurallyEqual a.memberName b.memberName &&
      a.isCurrentInstantiation == b.isCurrentInstantiation &&
      templateArgumentListsStructurallyEqual a.templateArguments b.templateArguments
  | .dependent a, .dependent b => idsStructurallyEqual a b
  | .auto a, .auto b => a == b
  | .typeofExpr a, .typeofExpr b => idsStructurallyEqual a b
  | .decltypeExpr a, .decltypeExpr b =>
    idsStructurallyEqual a.expr b.expr && a.useDeclaredTypeRule == b.useDeclaredTypeRule &&
      a.operandCategory == b.operandCategory &&
      refsStructurallyEqual a.operandType b.operandType &&
      refsStructurallyEqual a.dependentValueQualifier b.dependentValueQualifier &&
      idsStructurallyEqual a.dependentValueName b.dependentValueName &&
      templateValueExprsStructurallyEqual a.operandExpression b.operandExpression
  | .builtinTransform a, .builtinTransform b =>
    a.transformKind == b.transformKind && refsStructurallyEqual a.operandType b.operandType
  | .builtinPackElement a, .builtinPackElement b => templateArgumentListsStructurallyEqual a b
  | .packIndex a, .packIndex b =>
    refsStructurallyEqual a.packType b.packType &&
      templateValueExprsStructurallyEqual a.indexExpression b.indexExpression &&
      a.fullySubstituted == b.fullySubstituted &&
      listsEqual refsStructurallyEqual a.expansions b.expansions
  | .place a, .place b => refsStructurallyEqual a b
  | _, _ => false

def sameLink (lhs rhs : TypeId) : Bool :=
  if !lhs.valid || !rhs.valid then lhs.valid == rhs.valid else lhs == rhs

/-- What the interning of types compares of two specifications. -/
def typeSpecsEqual (lhs rhs : TypeSpec) : Bool :=
  lhs.kind == rhs.kind && payloadFieldsEqual lhs.payload rhs.payload &&
    sameLink lhs.canonical rhs.canonical && sameLink lhs.desugared rhs.desugared &&
    sameLink lhs.resolved rhs.resolved

section Hashing

-- The standard library's hash of a string is not specified any further.
variable (stringHash : String → UInt64)

def refWords (ref : TypeRef) : List UInt64 :=
  [structuralIdValue ref.type, ref.qualifiers.toUInt64, .ofNat ref.memorySpace.ctorIdx]

def stringWords (value : String) : List UInt64 :=
  [.ofNat value.utf8ByteSize, stringHash value]

def integerWords (value : IntegerValue) : List UInt64 :=
  [value.lowBits, value.highBits, value.bitWidth.toUInt64, value.isUnsigned.toUInt64]

def packReferenceWords (reference : TemplateValuePackReference) : List UInt64 :=
  [.ofNat reference.kind.ctorIdx, structuralIdValue reference.declaration,
    structuralIdValue reference.owner, reference.depth.toUInt64, reference.index.toUInt64,
    structuralIdValue reference.parameterType, structuralIdValue reference.name]

mutual

def templateArgumentWords : TemplateArgument → List UInt64
  | .mk fields elements valueExpr countExpr _ =>
    .ofNat fields.kind.ctorIdx :: refWords fields.type ++ refWords fields.valueType ++
      .ofNat fields.valueKind.ctorIdx :: integerWords fields.integerValue ++
      [structuralIdValue fields.valueEntity, fields.valueByteOffset.toUInt64,
        .ofNat fields.metaKind.ctorIdx, .ofNat elements.length] ++
      templateArgumentListWords elements ++ fields.valueParamIndex.toUInt64 ::
      refWords fields.dependentValueQualifier ++
      structuralIdValue fields.dependentValueName ::
      templateValueExpressionWords valueExpr ++ .ofNat fields.generatedPackKind.ctorIdx ::
      refWords fields.generatedPackCountType ++ templateValueExpressionWords countExpr ++
      [structuralIdValue fields.templateEntity, fields.templateParamIndex.toUInt64] ++
      refWords fields.dependentTemplateQualifier ++
      [structuralIdValue fields.templateName, fields.isDependent.toUInt64,
        fields.isDefaulted.toUInt64, fields.expandsParameterPack.toUInt64] ++
      stringWords stringHash fields.valueSpelling

def templateArgumentListWords : List TemplateArgument → List UInt64
  | [] => []
  | argument :: rest => templateArgumentWords argument ++ templateArgumentListWords rest

def templateValueExpressionWords : TemplateValueExpression → List UInt64
  | .mk nodes root _ =>
    root.toUInt64 :: .ofNat nodes.length :: templateValueExprNodesWords nodes

def templateValueExprNodesWords : List TemplateValueExprNode → List UInt64
  | [] => []
  | node :: rest => templateValueExprNodeWords node ++ templateValueExprNodesWords rest

def templateValueExprNodeWords : TemplateValueExprNode → List UInt64
  | .mk fields arguments =>
    [.ofNat fields.kind.ctorIdx, .ofNat fields.op.ctorIdx, .ofNat fields.traitKind.ctorIdx,
        .ofNat fields.foldKind.ctorIdx, fields.value.toUInt64] ++
      integerWords fields.integerValue ++
      [fields.parameterIndex.toUInt64, fields.lhs.toUInt64, fields.rhs.toUInt64,
        fields.third.toUInt64, .ofNat fields.operands.length] ++
      fields.operands.map UInt32.toUInt64 ++
      [fields.expandsParameterPack.toUInt64, .ofNat fields.packReferences.length] ++
      fields.packReferences.flatMap packReferenceWords ++
      .ofNat arguments.length :: templateArgumentListWords arguments ++
      structuralIdValue fields.type :: refWords fields.resultType ++
      [structuralIdValue fields.entity, structuralIdValue fields.name] ++
      refWords fields.qualifierType ++ stringWords stringHash fields.semanticKey

end

def hashTemplateArgument (hash : UInt64) (argument : TemplateArgument) : UInt64 :=
  (templateArgumentWords stringHash argument).foldl hashMix hash

def hashTemplateValueExpression (hash : UInt64) (expression : TemplateValueExpression) :
    UInt64 :=
  (templateValueExpressionWords stringHash expression).foldl hashMix hash

def templateValueExpressionStructuralHash (expression : TemplateValueExpression) : UInt64 :=
  hashTemplateValueExpression stringHash 0 expression

def templateArgumentsWords (arguments : List TemplateArgument) : List UInt64 :=
  .ofNat arguments.length :: templateArgumentListWords stringHash arguments

def payloadWords : TypePayload → List UInt64
  | .invalid | .error | .placeholder => []
  | .unknown debugName => stringWords stringHash debugName
  | .builtin value =>
    .ofNat value.kind.ctorIdx :: stringWords stringHash value.spelling ++
      [value.widthOverride.toUInt64, value.rankOverride.toInt64.toUInt64,
        value.unsignedOverride.toInt64.toUInt64]
  | .pointer pointee | .blockPointer pointee => refWords pointee
  | .memberPointer value => refWords value.classType ++ refWords value.memberType
  | .reference value => .ofNat value.referenceKind.ctorIdx :: refWords value.referredType
  | .array value =>
    refWords value.elementType ++
      [.ofNat value.sizeKind.ctorIdx, value.size.isSome.toUInt64, value.size.getD 0,
        structuralIdValue value.sizeExpr, value.sizeExprIsDependent.toUInt64,
        value.extentParam.toUInt64] ++
      templateValueExpressionWords stringHash value.dependentSizeExpr
  | .function value =>
    refWords value.returnType ++ .ofNat value.parameters.length ::
      value.parameters.flatMap refWords ++ .ofNat value.parameterPackFlags.length ::
      value.parameterPackFlags.map UInt8.toUInt64 ++
      [value.isVariadic.toUInt64, value.hasPrototype.toUInt64,
        .ofNat value.memberRefQualifier.ctorIdx, value.memberIsConst.toUInt64,
        value.memberIsVolatile.toUInt64, .ofNat value.exceptionSpec.kind.ctorIdx] ++
      templateValueExpressionWords stringHash value.exceptionSpec.predicate ++
      [.ofNat value.callingConvention.ctorIdx]
  | .record value =>
    [structuralIdValue value.entity, structuralIdValue value.name, value.isUnion.toUInt64,
      value.isIncomplete.toUInt64]
  | .enum value =>
    [structuralIdValue value.entity, structuralIdValue value.name, value.isScoped.toUInt64,
        value.isIncomplete.toUInt64, value.hasFixedUnderlyingType.toUInt64] ++
      refWords value.underlyingType
  | .vector value =>
    refWords value.elementType ++ [value.elementCount.toUInt64, value.sizeBytes]
  | .complex elementType => refWords elementType
  | .bitInt value => [value.bits.toUInt64, value.isUnsigned.toUInt64]
  | .typedef value =>
    [structuralIdValue value.entity, structuralIdValue value.name] ++ refWords value.underlyingType
  | .typeParam value =>
    [structuralIdValue value.entity, structuralIdValue value.name, value.depth.toUInt64,
      value.index.toUInt64, value.isParameterPack.toUInt64]
  | .templateSpecialization value =>
    [structuralIdValue value.templateName, structuralIdValue value.primaryTemplate] ++
      templateValueExpressionWords stringHash value.spliceOperand ++
      [value.isDependent.toUInt64, value.isClassTemplatePlaceholder.toUInt64] ++
      templateArgumentsWords stringHash value.arguments
  | .aliasSpecialization value =>
    [structuralIdValue value.templateName, structuralIdValue value.aliasTemplate] ++
      templateArgumentsWords stringHash value.arguments ++ refWords value.associatedType
  | .dependentName value =>
    refWords value.qualifierType ++
      [structuralIdValue value.memberName, value.isCurrentInstantiation.toUInt64] ++
      templateArgumentsWords stringHash value.templateArguments
  | .dependent debugName => [structuralIdValue debugName]
  | .auto flavor => [.ofNat flavor.ctorIdx]
  | .typeofExpr expr => [structuralIdValue expr]
  | .decltypeExpr value =>
    [structuralIdValue value.expr, value.useDeclaredTypeRule.toUInt64,
        .ofNat value.operandCategory.ctorIdx] ++
      refWords value.operandType ++ refWords value.dependentValueQualifier ++
      structuralIdValue value.dependentValueName ::
      templateValueExpressionWords stringHash value.operandExpression
  | .builtinTransform value =>
    .ofNat value.transformKind.ctorIdx :: refWords value.operandType
  | .builtinPackElement arguments => templateArgumentsWords stringHash arguments
  | .packIndex value =>
    refWords value.packType ++
      templateValueExpressionWords stringHash value.indexExpression ++
      .ofNat value.expansions.length :: value.expansions.flatMap refWords ++
      [value.fullySubstituted.toUInt64]
  | .place objectType => refWords objectType

def hashPayload (hash : UInt64) (payload : TypePayload) : UInt64 :=
  (payloadWords stringHash payload).foldl hashMix hash

def typeSpecHash (spec : TypeSpec) : UInt64 :=
  let hash := hashPayload stringHash (hashMix 0 (.ofNat spec.kind.ctorIdx)) spec.payload
  let hash := hashMix hash (structuralIdValue spec.canonical)
  let hash := hashMix hash (structuralIdValue spec.desugared)
  hashMix hash (structuralIdValue spec.resolved)

end Hashing

end Aburi.Cir
