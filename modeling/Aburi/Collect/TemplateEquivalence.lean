import Aburi.Cir.InternFile

/-!
# Equivalent template arguments

The comparison of types, template arguments and value expressions by which
constraints are recognized.  Types are followed through their structure, where
parameters of templates count by their position; the number of levels that are
followed is bounded, as the types of a file do not contain themselves.
-/

namespace Aburi.Collect

open Aburi.Cir

inductive TemplateArgumentBindingKind where
  | unbound | single | pack
  deriving DecidableEq

structure TemplateArgumentBinding where
  kind : TemplateArgumentBindingKind := .unbound
  arguments : List TemplateArgument := []

/-- What is compared of the template a record was instantiated from. -/
structure TemplateSpecializationFact where
  templateEntity : EntityId := {}
  templateParamIndex : UInt32 := noExtentParam
  argumentBindings : List TemplateArgumentBinding := []
  dependentArguments : List TemplateArgument := []

structure TemplateFile where
  file : File := {}
  templateSpecialization : EntityId → Option TemplateSpecializationFact := fun _ => none

namespace TemplateFile

variable (view : TemplateFile)

def type (id : TypeId) : CirType := view.file.types.getD id.index.toNat {}

def typePayload (id : TypeId) : TypePayload :=
  if view.file.validType id then
    view.file.typePayloads.getD (view.type id).payloadIndex.toNat .invalid
  else .invalid

def canonicalType (id : TypeId) : TypeId :=
  if view.file.validType id then
    if (view.type id).canonical.valid then (view.type id).canonical else id
  else {}

def desugaredType (id : TypeId) : TypeId :=
  if view.file.validType id then
    if (view.type id).desugared.valid then (view.type id).desugared else view.canonicalType id
  else {}

def resolvedType (id : TypeId) : TypeId :=
  if view.file.validType id then
    if (view.type id).resolved.valid then (view.type id).resolved else view.desugaredType id
  else {}

def referenceReferredRef (id : TypeId) : TypeRef :=
  match view.typePayload id with
  | .reference payload => payload.referredType
  | _ => {}

def recordEntity (id : TypeId) : EntityId :=
  let resolved := view.resolvedType id
  if view.file.validType resolved ∧ (view.type resolved).kind = .record then
    match view.typePayload resolved with
    | .record payload => payload.entity
    | _ => {}
  else {}

end TemplateFile

section Recipes

variable (refsEqual : TypeRef → TypeRef → Bool)

def typesEqual (left right : TypeId) : Bool :=
  refsEqual { type := left } { type := right }

def packReferencesEquivalent (left right : TemplateValuePackReference) : Bool :=
  left.kind == right.kind && left.depth == right.depth && left.index == right.index &&
    typesEqual refsEqual left.parameterType right.parameterType

/-- The fields of two nodes.  A parameter counts by its position. -/
def nodeFieldsEquivalent (lhs rhs : TemplateValueExprNodeFields) : Bool :=
  listsEqual (packReferencesEquivalent refsEqual) lhs.packReferences rhs.packReferences &&
    lhs.kind == rhs.kind && lhs.op == rhs.op && lhs.traitKind == rhs.traitKind &&
    lhs.foldKind == rhs.foldKind && lhs.value == rhs.value &&
    lhs.integerValue == rhs.integerValue && lhs.parameterIndex == rhs.parameterIndex &&
    lhs.lhs == rhs.lhs && lhs.rhs == rhs.rhs && lhs.third == rhs.third &&
    lhs.operands == rhs.operands && lhs.expandsParameterPack == rhs.expandsParameterPack &&
    typesEqual refsEqual lhs.type rhs.type && refsEqual lhs.resultType rhs.resultType &&
    (lhs.kind == .parameter || lhs.entity == rhs.entity) && lhs.name == rhs.name &&
    refsEqual lhs.qualifierType rhs.qualifierType && lhs.semanticKey == rhs.semanticKey

/-- The fields of two recipes, as far as their kind reads them. -/
def recipeFieldsEquivalent (lhs rhs : TemplateArgumentFields) : Bool :=
  lhs.kind == rhs.kind && lhs.expandsParameterPack == rhs.expandsParameterPack &&
    lhs.expandsPackPattern == rhs.expandsPackPattern &&
    lhs.generatedPackKind == rhs.generatedPackKind &&
    refsEqual lhs.generatedPackCountType rhs.generatedPackCountType &&
    match lhs.kind with
    | .type => lhs.valueParamIndex == rhs.valueParamIndex && refsEqual lhs.type rhs.type
    | .value =>
      let parameterValue :=
        lhs.valueParamIndex != noExtentParam && rhs.valueParamIndex != noExtentParam
      refsEqual lhs.type rhs.type && refsEqual lhs.valueType rhs.valueType &&
        lhs.valueKind == rhs.valueKind && lhs.nullKind == rhs.nullKind &&
        lhs.metaKind == rhs.metaKind && lhs.integerValue == rhs.integerValue &&
        (parameterValue || lhs.valueEntity == rhs.valueEntity) &&
        lhs.closureIdentity == rhs.closureIdentity &&
        lhs.valueByteOffset == rhs.valueByteOffset &&
        lhs.valueParamIndex == rhs.valueParamIndex &&
        lhs.dependentValueName == rhs.dependentValueName &&
        refsEqual lhs.dependentValueQualifier rhs.dependentValueQualifier &&
        (lhs.valueKind != .floating || lhs.floatingValue == rhs.floatingValue)
    | .template =>
      let parameterTemplate :=
        lhs.templateParamIndex != noExtentParam && rhs.templateParamIndex != noExtentParam
      lhs.templateParamIndex == rhs.templateParamIndex &&
        (parameterTemplate || lhs.templateEntity == rhs.templateEntity) &&
        (parameterTemplate || lhs.templateName == rhs.templateName) &&
        refsEqual lhs.dependentTemplateQualifier rhs.dependentTemplateQualifier

mutual

def templateArgumentRecipeEquivalent : TemplateArgument → TemplateArgument → Bool
  | .mk fields elements valueExpr countExpr _, .mk fields' elements' valueExpr' countExpr' _ =>
    recipeFieldsEquivalent refsEqual fields fields' &&
      templateValueExprsEquivalent countExpr countExpr' &&
      (fields.kind != .value ||
        templateValueExprsEquivalent valueExpr valueExpr' &&
          templateArgumentRecipesEquivalent elements elements')
termination_by structural lhs => lhs

def templateArgumentRecipesEquivalent : List TemplateArgument → List TemplateArgument → Bool
  | [], [] => true
  | lhs :: lhsRest, rhs :: rhsRest =>
    templateArgumentRecipeEquivalent lhs rhs && templateArgumentRecipesEquivalent lhsRest rhsRest
  | _, _ => false
termination_by structural lhs => lhs

def templateValueExprsEquivalent : TemplateValueExpression → TemplateValueExpression → Bool
  | .mk nodes root _, .mk nodes' root' _ =>
    root == root' && templateValueExprNodeListsEquivalent nodes nodes'
termination_by structural lhs => lhs

/-- The loop over the nodes of two expressions. -/
def templateValueExprNodeListsEquivalent :
    List TemplateValueExprNode → List TemplateValueExprNode → Bool
  | [], [] => true
  | lhs :: lhsRest, rhs :: rhsRest =>
    templateValueExprNodesEquivalent lhs rhs && templateValueExprNodeListsEquivalent lhsRest rhsRest
  | _, _ => false
termination_by structural lhs => lhs

def templateValueExprNodesEquivalent : TemplateValueExprNode → TemplateValueExprNode → Bool
  | .mk fields arguments, .mk fields' arguments' =>
    templateArgumentRecipesEquivalent arguments arguments' &&
      nodeFieldsEquivalent refsEqual fields fields'
termination_by structural lhs => lhs

end

def bindingsEquivalent (lhs rhs : TemplateArgumentBinding) : Bool :=
  lhs.kind == rhs.kind && templateArgumentRecipesEquivalent refsEqual lhs.arguments rhs.arguments

def templateArgumentBindingsEquivalent (lhs rhs : List TemplateArgumentBinding) : Bool :=
  listsEqual (bindingsEquivalent refsEqual) lhs rhs

def specializationFactsEquivalent (lhs rhs : TemplateSpecializationFact) : Bool :=
  lhs.templateEntity == rhs.templateEntity && lhs.templateParamIndex == rhs.templateParamIndex &&
    if !lhs.argumentBindings.isEmpty || !rhs.argumentBindings.isEmpty then
      templateArgumentBindingsEquivalent refsEqual lhs.argumentBindings rhs.argumentBindings
    else
      templateArgumentRecipesEquivalent refsEqual lhs.dependentArguments rhs.dependentArguments

/-- The payloads of two different types of one kind. -/
def payloadsEquivalent (kind : TypeKind) : TypePayload → TypePayload → Bool
  | .typeParam a, .typeParam b =>
    kind == .typeParam && a.depth == b.depth && a.index == b.index &&
      a.isParameterPack == b.isParameterPack
  | .pointer a, .pointer b => kind == .pointer && refsEqual a b
  | .templateSpecialization a, .templateSpecialization b =>
    kind == .templateSpecialization && a.templateName == b.templateName &&
      a.primaryTemplate == b.primaryTemplate && a.isDependent == b.isDependent &&
      a.isClassTemplatePlaceholder == b.isClassTemplatePlaceholder &&
      templateArgumentRecipesEquivalent refsEqual a.arguments b.arguments &&
      templateValueExprsEquivalent refsEqual a.spliceOperand b.spliceOperand
  | .aliasSpecialization a, .aliasSpecialization b =>
    kind == .aliasSpecialization && a.templateName == b.templateName &&
      a.aliasTemplate == b.aliasTemplate &&
      templateArgumentRecipesEquivalent refsEqual a.arguments b.arguments &&
      refsEqual a.associatedType b.associatedType
  | .dependentName a, .dependentName b =>
    kind == .dependentName && a.memberName == b.memberName &&
      a.isCurrentInstantiation == b.isCurrentInstantiation &&
      refsEqual a.qualifierType b.qualifierType &&
      templateArgumentRecipesEquivalent refsEqual a.templateArguments b.templateArguments
  | .builtinTransform a, .builtinTransform b =>
    kind == .builtinTransform && a.transformKind == b.transformKind &&
      refsEqual a.operandType b.operandType
  | .packIndex a, .packIndex b =>
    kind == .packIndex && a.fullySubstituted == b.fullySubstituted &&
      refsEqual a.packType b.packType &&
      templateValueExprsEquivalent refsEqual a.indexExpression b.indexExpression &&
      listsEqual refsEqual a.expansions b.expansions
  | _, _ => false

/-- The switch over the kind of two different types. -/
def typesOfKindEquivalent (view : TemplateFile) (kind : TypeKind) (l r : TypeId) : Bool :=
  match kind with
  | .lvalueReference | .rvalueReference =>
    refsEqual (view.referenceReferredRef l) (view.referenceReferredRef r)
  | .record =>
    match view.templateSpecialization (view.recordEntity l),
        view.templateSpecialization (view.recordEntity r) with
    | some lhs, some rhs => specializationFactsEquivalent refsEqual lhs rhs
    | _, _ => false
  | kind => payloadsEquivalent refsEqual kind (view.typePayload l) (view.typePayload r)

end Recipes

/-- Two resolved types, with the comparison of the types inside them. -/
def resolvedTypesEquivalent (view : TemplateFile) (refsEqual : TypeRef → TypeRef → Bool)
    (l r : TypeId) : Bool :=
  l == r ||
    view.file.validType l && view.file.validType r && (view.type l).kind == (view.type r).kind &&
      typesOfKindEquivalent refsEqual view (view.type l).kind l r

def templateTypeRefsEquivalent (view : TemplateFile) : ℕ → TypeRef → TypeRef → Bool
  | levels, lhs, rhs =>
    lhs.qualifiers == rhs.qualifiers && lhs.memorySpace == rhs.memorySpace &&
      match levels with
      | 0 => view.resolvedType lhs.type == view.resolvedType rhs.type
      | levels + 1 =>
        resolvedTypesEquivalent view (templateTypeRefsEquivalent view levels)
          (view.resolvedType lhs.type) (view.resolvedType rhs.type)

section Arguments

variable (refsEqual : TypeRef → TypeRef → Bool)

/-- Types of values are compared where both are known. -/
def valueFieldsEquivalent (lhs rhs : TemplateArgumentFields) : Bool :=
  lhs.kind == .value && rhs.kind == .value &&
    (!(lhs.valueType.type.valid && rhs.valueType.type.valid) ||
      refsEqual lhs.valueType rhs.valueType) &&
    lhs.valueKind == rhs.valueKind && lhs.nullKind == rhs.nullKind &&
    lhs.metaKind == rhs.metaKind && refsEqual lhs.type rhs.type &&
    lhs.integerValue == rhs.integerValue && lhs.valueEntity == rhs.valueEntity &&
    lhs.closureIdentity == rhs.closureIdentity && lhs.valueByteOffset == rhs.valueByteOffset &&
    lhs.valueParamIndex == rhs.valueParamIndex &&
    lhs.generatedPackKind == rhs.generatedPackKind &&
    refsEqual lhs.generatedPackCountType rhs.generatedPackCountType &&
    refsEqual lhs.dependentValueQualifier rhs.dependentValueQualifier &&
    lhs.dependentValueName == rhs.dependentValueName &&
    (lhs.valueKind != .floating || lhs.floatingValue == rhs.floatingValue)

mutual

def templateValueArgumentsEquivalent : TemplateArgument → TemplateArgument → Bool
  | .mk fields elements valueExpr countExpr _, .mk fields' elements' valueExpr' countExpr' _ =>
    valueFieldsEquivalent refsEqual fields fields' &&
      templateValueExprsEquivalent refsEqual valueExpr valueExpr' &&
      templateValueExprsEquivalent refsEqual countExpr countExpr' &&
      templateValueElementsEquivalent elements elements'
termination_by structural lhs => lhs

def templateValueElementsEquivalent : List TemplateArgument → List TemplateArgument → Bool
  | [], [] => true
  | lhs :: lhsRest, rhs :: rhsRest =>
    templateValueArgumentsEquivalent lhs rhs && templateValueElementsEquivalent lhsRest rhsRest
  | _, _ => false
termination_by structural lhs => lhs

end

def templateArgumentFields : TemplateArgument → TemplateArgumentFields
  | .mk fields _ _ _ _ => fields

def templateArgumentsEquivalent (lhs rhs : TemplateArgument) : Bool :=
  let left := templateArgumentFields lhs
  let right := templateArgumentFields rhs
  left.kind == right.kind && left.expandsParameterPack == right.expandsParameterPack &&
    match left.kind with
    | .type => left.valueParamIndex == right.valueParamIndex && refsEqual left.type right.type
    | .value => templateValueArgumentsEquivalent refsEqual lhs rhs
    | .template =>
      left.templateEntity == right.templateEntity &&
        left.templateParamIndex == right.templateParamIndex &&
        refsEqual left.dependentTemplateQualifier right.dependentTemplateQualifier &&
        left.templateName == right.templateName

def templateArgumentListsEquivalent (lhs rhs : List TemplateArgument) : Bool :=
  listsEqual (templateArgumentsEquivalent refsEqual) lhs rhs

end Arguments

end Aburi.Collect
