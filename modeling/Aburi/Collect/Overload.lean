import Aburi.Collect.ConversionAntisymmetry
import Aburi.Collect.TemplateOrder
import Aburi.Lib.Tournament

/-!
# Overload resolution

`Session::select_overload_detailed`.  The conversion of an argument to a parameter, the
deduction of template arguments and the other questions put to the session are
parameters; the cache of conversions, which only repeats answers, is left out.

A member candidate for which the call has no object argument is not viable here; the
source would read past the end of the arguments.
-/

namespace Aburi.Collect

open Aburi.Cir (TypeId EntityId TypeRef FunctionRefQualifierKind)
open Aburi.Lib (winner)

inductive OperatorRewriteKind where
  | none | equality | threeWay
  deriving DecidableEq

structure OverloadCandidate where
  entity : EntityId
  memberObjectLeading : Bool := false
  ranksConversionResult : Bool := false
  hasReversedParameters : Bool := false
  rewriteKind : OperatorRewriteKind := .none
  canonicalMemberObjectType : TypeId := {}

structure OverloadSelection where
  entity : EntityId := {}
  rewriteKind : OperatorRewriteKind := .none
  hasReversedParameters : Bool := false
  ambiguous : Bool := false
  deriving DecidableEq

/-- What overload resolution asks of the session. -/
structure OverloadSession (Bindings Expr : Type) where
  file : OverloadFile
  deduction : Deduction Bindings
  argumentType : Expr → TypeId
  argumentCategory : Expr → ValueCategory
  semanticObjectQualifiers : Expr → Option UInt8
  /-- the qualifiers of the place of an expression, if it has one -/
  placeQualifiers : Expr → Option UInt8
  typesCompatible : TypeRef → TypeRef → Bool
  /-- an argument with its object qualifiers to a parameter, with user-defined
  conversions and explicit conversion functions or without -/
  conversionRank : Expr → UInt8 → TypeRef → Bool → Bool → ConversionRank × ConversionDetail
  conversionRankOfType : TypeId → ValueCategory → UInt8 → TypeRef →
    ConversionRank × ConversionDetail
  callableDefaultArgument : EntityId → ℕ → Bool
  /-- the record an entity stands for has virtual bases -/
  hasVirtualBases : EntityId → Bool

/-- A call, apart from its candidates. -/
structure OverloadCall (Expr : Type) where
  arguments : List Expr
  conversionResultTarget : TypeId := {}
  allowUserDefinedArgumentConversions : Bool := true
  directConstructorTarget : TypeId := {}

abbrev Conversion := ConversionRank × ConversionDetail

structure Scored where
  entity : EntityId
  conversions : List Conversion := []
  result : Option Conversion := none
  isTemplateSpecialization : Bool := false
  ranksConversionResult : Bool := false
  orderingArgumentCount : ℕ := 0
  rewriteKind : OperatorRewriteKind := .none
  hasReversedParameters : Bool := false
  hasImplicitObjectRank : Bool := false

def Scored.selection (scored : Scored) : OverloadSelection where
  entity := scored.entity
  rewriteKind := scored.rewriteKind
  hasReversedParameters := scored.hasReversedParameters

namespace OverloadSession

variable {Bindings Expr : Type} (session : OverloadSession Bindings Expr)

/-- `Session::function_signatures_match` -/
def functionSignaturesMatch (lhs rhs : TypeId) : Bool :=
  match session.file.functionPayloadOf lhs, session.file.functionPayloadOf rhs with
  | some left, some right =>
    left.parameters.length == right.parameters.length &&
      left.isVariadic == right.isVariadic && left.memberIsConst == right.memberIsConst &&
      left.memberIsVolatile == right.memberIsVolatile &&
      left.memberRefQualifier == right.memberRefQualifier &&
      left.callingConvention == right.callingConvention &&
      (left.parameters.zip right.parameters).all fun (a, b) =>
        session.file.resolvedType a.type == session.file.resolvedType b.type &&
          a.memorySpace == b.memorySpace
  | _, _ => false

def isFunction (candidate : OverloadCandidate) : Bool :=
  match session.file.entity candidate.entity with
  | some entity =>
    candidate.entity.valid && (session.file.functionPayloadOf entity.type).isSome
  | none => false

/-- The later candidate takes the place of the earlier one. -/
def supersedes (later earlier : OverloadCandidate) : Bool :=
  let file := session.file
  match file.entity earlier.entity, file.entity later.entity with
  | some entity, some other =>
    session.isFunction earlier && session.isFunction later &&
      earlier.rewriteKind == later.rewriteKind &&
      earlier.hasReversedParameters == later.hasReversedParameters &&
      entity.kind == other.kind && entity.name == other.name &&
      (file.templateSpecialization earlier.entity).map (·.templateEntity) ==
        (file.templateSpecialization later.entity).map (·.templateEntity) &&
      session.functionSignaturesMatch entity.type other.type &&
      match file.methodFact earlier.entity, file.methodFact later.entity with
      | none, none => true
      | some method, some otherMethod =>
        method.inheritedConstructor.isNone && otherMethod.inheritedConstructor.isNone &&
          method.associatedConstraintFingerprint == otherMethod.associatedConstraintFingerprint
      | _, _ => false
  | _, _ => false

def filterCandidates : List OverloadCandidate → List OverloadCandidate
  | [] => []
  | candidate :: rest =>
    if !candidate.entity.valid || (session.file.entity candidate.entity).isNone ||
        session.file.hasTemplateInfo candidate.entity ||
        rest.any fun later => session.supersedes later candidate then
      filterCandidates rest
    else candidate :: filterCandidates rest

variable (call : OverloadCall Expr)

def objectQualifiers (argument : Expr) : UInt8 :=
  match session.semanticObjectQualifiers argument with
  | some qualifiers => qualifiers
  | none =>
    if session.argumentCategory argument = .lValue ∨
        session.argumentCategory argument = .xValue then
      (session.placeQualifiers argument).getD 0
    else 0

def permitsExplicitConversionFunction (parameter : TypeRef) : Bool :=
  call.directConstructorTarget.valid &&
    match session.file.shape (session.file.resolvedType parameter.type) with
    | some (.lvalueReference referred) | some (.rvalueReference referred) =>
      session.file.resolvedType referred.type ==
        session.file.resolvedType call.directConstructorTarget
    | _ => false

def effectiveArgumentIndex (candidate : OverloadCandidate) (index : ℕ) : ℕ :=
  if candidate.hasReversedParameters && call.arguments.length == 2 then 1 - index else index

def isMember (entity : Entity) : Bool :=
  entity.kind == .method || entity.kind == .constructor || entity.kind == .destructor ||
    entity.isStaticMemberFunction

def hasThis (candidate : EntityId) (entity : Entity) : Bool :=
  isMember entity && !entity.isStaticMemberFunction &&
    !((session.file.methodFact candidate).any RecordMethodFact.isStatic)

def constraintsFail (candidate : EntityId) (entity : Entity) : Bool :=
  isMember entity &&
    (session.file.methodFact candidate).any fun fact =>
      fact.constraintSatisfaction == .unsatisfied || fact.constraintSatisfaction == .invalid

/-- The conversion of the object a member is called on; nothing when the member cannot
be called on it. -/
def objectConversion (candidate : OverloadCandidate) (function : FunctionTypePayload) :
    Option Conversion := do
  let argument ← call.arguments[effectiveArgumentIndex call candidate 0]?
  let file := session.file
  let classType :=
    match function.parameters with
    | first :: _ =>
      match file.shape (file.resolvedType first.type) with
      | some (.pointer pointee) => pointee
      | _ => {}
    | [] => {}
  let objectParameterType :=
    if candidate.canonicalMemberObjectType.valid then candidate.canonicalMemberObjectType
    else classType
  let sourceType := session.argumentType argument
  let sameClass := session.typesCompatible
    { type := file.resolvedType objectParameterType } { type := file.resolvedType sourceType }
  let derivedObject := file.derivedToBasePath sourceType objectParameterType
  let objectCv := session.objectQualifiers argument
  let isLvalue := session.argumentCategory argument == .lValue
  if !sameClass && !derivedObject && !candidate.canonicalMemberObjectType.valid then none
  else if !function.memberIsConst && objectCv &&& 1 != 0 then none
  else if !function.memberIsVolatile && objectCv &&& 2 != 0 then none
  else if function.memberRefQualifier == .lvalue && !isLvalue then none
  else if function.memberRefQualifier == .rvalue && isLvalue then none
  else
    some (if sameClass then .exact else .conversion, {
      standard := {
        source := { type := sourceType }
        target := { type := objectParameterType }
        sourceCategory := session.argumentCategory argument
        steps := (if sameClass then 0 else StandardConversionStep.derivedToBase) |||
          StandardConversionStep.referenceBinding
        boundReferred := file.resolvedType objectParameterType
        boundQualifiers := (if function.memberIsConst then 1 else 0) |||
          (if function.memberIsVolatile then 2 else 0) } })

/-- The parameters that have to be given: those before the last run of default
arguments. -/
def minimumParams (candidate : EntityId) : ℕ → ℕ
  | 0 => 0
  | count + 1 =>
    if session.callableDefaultArgument candidate count then minimumParams candidate count
    else count + 1

def argumentConversion (candidate : OverloadCandidate) (parameters : List TypeRef)
    (argumentOffset index : ℕ) : Option Conversion :=
  match parameters[index]? with
  | none => some (.ellipsis, {})
  | some parameter => do
      let argument ←
        call.arguments[effectiveArgumentIndex call candidate (argumentOffset + index)]?
      let conversion := session.conversionRank argument (session.objectQualifiers argument)
        parameter call.allowUserDefinedArgumentConversions
        (session.permitsExplicitConversionFunction call parameter)
      if conversion.1 = .bad then none else some conversion

/-- `conversion_result_value` -/
def conversionResultValue (returnType : TypeRef) : Option (TypeId × ValueCategory × UInt8) :=
  let type := session.file.resolvedType returnType.type
  match session.file.shape type with
  | none => none
  | some (.lvalueReference referred) =>
    some (session.file.resolvedType referred.type, .lValue, referred.qualifiers)
  | some (.rvalueReference referred) =>
    some (session.file.resolvedType referred.type, .xValue, referred.qualifiers)
  | some _ => some (type, .prValue, returnType.qualifiers)

/-- The conversion of what a conversion function returns, where it is ranked; nothing
when there is none. -/
def resultConversion (candidate : OverloadCandidate) (function : FunctionTypePayload) :
    Option (Option Conversion) :=
  if call.conversionResultTarget.valid && candidate.ranksConversionResult then
    match session.conversionResultValue function.returnType with
    | none => none
    | some (type, category, qualifiers) =>
      let conversion := session.conversionRankOfType type category qualifiers
        { type := call.conversionResultTarget }
      if !type.valid || conversion.1 = .bad then none else some (some conversion)
  else some none

def reverseConversions (candidate : OverloadCandidate) : List Conversion → List Conversion
  | [first, second] => if candidate.hasReversedParameters then [second, first]
      else [first, second]
  | conversions => conversions

/-- The ranks of a candidate, or nothing when it is not viable. -/
def score (candidate : OverloadCandidate) : Option Scored := do
  let entity ← session.file.entity candidate.entity
  let function ← session.file.functionPayloadOf entity.type
  if session.constraintsFail candidate.entity entity then none else
  let hasThis := session.hasThis candidate.entity entity
  let leading := candidate.memberObjectLeading && hasThis
  let object : List Conversion ←
    if leading then (session.objectConversion call candidate function).map fun conversion =>
      [conversion]
    else some []
  let argumentOffset := if candidate.memberObjectLeading && isMember entity then 1 else 0
  if call.arguments.length < argumentOffset then none else
  let written := function.parameters.drop (if hasThis then 1 else 0)
  let remainingParams :=
    if (entity.kind == .constructor || entity.kind == .destructor) &&
        session.hasVirtualBases entity.parent then written.length - 2
    else written.length
  let remainingArguments := call.arguments.length - argumentOffset
  let minimum := session.minimumParams candidate.entity remainingParams
  if remainingArguments < minimum then none else
  if !function.isVariadic && remainingParams < remainingArguments then none else
  let conversions ← (List.range remainingArguments).mapM
    (session.argumentConversion call candidate (written.take remainingParams) argumentOffset)
  let result ← session.resultConversion call candidate function
  let all := object ++ conversions
  some {
    entity := candidate.entity
    conversions := reverseConversions candidate all
    result := result
    isTemplateSpecialization :=
      (session.file.templateSpecialization candidate.entity).isSome
    ranksConversionResult := candidate.ranksConversionResult
    orderingArgumentCount := remainingArguments + (if leading then 1 else 0)
    rewriteKind := candidate.rewriteKind
    hasReversedParameters := candidate.hasReversedParameters
    hasImplicitObjectRank :=
      leading && !(candidate.hasReversedParameters && all.length == 2) }

def positionCompare (a b : Scored) (position : ℕ) (first second : Conversion) : ℤ :=
  session.file.compareImplicitConversionSequences first.1 first.2 second.1 second.2
    (position == 0 && a.hasImplicitObjectRank && b.hasImplicitObjectRank)

def positionComparisons (a b : Scored) : List ℤ :=
  (a.conversions.zip b.conversions).mapIdx fun position pair =>
    session.positionCompare a b position pair.1 pair.2

def resultCompare (a b : Scored) : ℤ :=
  match a.result, b.result with
  | some first, some second =>
    session.file.compareImplicitConversionSequences first.1 first.2 second.1 second.2 false
  | _, _ => 0

/-- The record derived from the other. -/
def compareOwners (a b : EntityId) : ℤ :=
  match session.file.entity a, session.file.entity b with
  | some first, some second =>
    if a.valid && b.valid && a != b then
      let aDerived := session.file.derivedToBasePath first.type second.type
      let bDerived := session.file.derivedToBasePath second.type first.type
      if aDerived ≠ bDerived then if aDerived then 1 else -1 else 0
    else 0
  | _, _ => 0

def parentOf (entity : EntityId) : EntityId :=
  ((session.file.entity entity).map Entity.parent).getD {}

/-- Members of different records, and inherited constructors. -/
def compareMembers (a b : Scored) : ℤ :=
  match session.file.methodFact a.entity, session.file.methodFact b.entity with
  | some aMethod, some bMethod =>
    orElse
      (match aMethod.inheritedConstructor, bMethod.inheritedConstructor with
      | some aOrigin, some bOrigin => session.compareOwners aOrigin bOrigin
      | some _, none => -1
      | none, some _ => 1
      | none, none => 0)
      (session.compareOwners (session.parentOf a.entity) (session.parentOf b.entity))
  | _, _ => 0

def isMoreConstrained (a b : Scored) : Bool :=
  !(a.isTemplateSpecialization && b.isTemplateSpecialization) &&
    match session.file.methodFact a.entity, session.file.methodFact b.entity with
    | some aMethod, some bMethod =>
      bMethod.associatedConstraintFingerprint != 0 &&
        aMethod.moreConstrainedThan.contains bMethod.associatedConstraintFingerprint
    | _, _ => false

def orderingContext (a b : Scored) : OrderingContext :=
  if call.conversionResultTarget.valid && a.ranksConversionResult &&
      b.ranksConversionResult then
    { kind := .conversionCall }
  else
    .call a.orderingArgumentCount b.orderingArgumentCount a.hasReversedParameters
      b.hasReversedParameters

def compareTemplates (a b : Scored) : ℤ :=
  if a.isTemplateSpecialization && b.isTemplateSpecialization then
    match session.file.compareFunctionTemplateSpecializations session.deduction a.entity
        b.entity (orderingContext call a b) with
    | .unordered => 0
    | .lhsMoreSpecialized => 1
    | .rhsMoreSpecialized => -1
  else 0

def compareRewrites (a b : Scored) : ℤ :=
  let aRewritten := a.rewriteKind ≠ .none
  let bRewritten := b.rewriteKind ≠ .none
  if aRewritten ≠ bRewritten then if aRewritten then -1 else 1
  else if aRewritten ∧ bRewritten ∧ a.hasReversedParameters ≠ b.hasReversedParameters then
    if a.hasReversedParameters then -1 else 1
  else 0

def better (a b : Scored) : Bool :=
  let comparisons := session.positionComparisons a b
  if comparisons.any (· < 0) then false
  else if comparisons.any (0 < ·) then true
  else if session.resultCompare a b ≠ 0 then 0 < session.resultCompare a b
  else if !a.isTemplateSpecialization && b.isTemplateSpecialization then true
  else if session.compareMembers a b ≠ 0 then 0 < session.compareMembers a b
  else if session.isMoreConstrained a b then true
  else if session.compareTemplates call a b ≠ 0 then 0 < session.compareTemplates call a b
  else 0 < compareRewrites a b

def viable (candidates : List OverloadCandidate) : List Scored :=
  (session.filterCandidates candidates).filterMap (session.score call)

/-- `Session::select_overload_detailed` -/
def selectOverloadDetailed (candidates : List OverloadCandidate) : OverloadSelection :=
  let viable := session.viable call candidates
  if viable.isEmpty then {}
  else
    match winner (session.better call) viable with
    | some best => best.selection
    | none => { ambiguous := true }

end OverloadSession

end Aburi.Collect
