import Aburi.Cir.StructuralEquality

/-!
# What two types have in common

The form of a type keeps what tells it from other types: all handles that name
nothing are one, and the handle of the canonical copy of an expression, the
state a constant was read from and the unconverted spelling of an argument are
dropped.  The form is taken twice: with all the fields of an argument that the
language tells types apart by, and with the fields that the structural
comparison reads.
-/

namespace Aburi.Cir

open Aburi.Lib (Handle)

def handleForm {Tag : Type} (id : Handle Tag) : Handle Tag := if id.valid then id else {}

def TypeRef.form (ref : TypeRef) : TypeRef := { ref with type := handleForm ref.type }

def TemplateValuePackReference.form (reference : TemplateValuePackReference) :
    TemplateValuePackReference :=
  { reference with
    declaration := handleForm reference.declaration
    owner := handleForm reference.owner
    parameterType := handleForm reference.parameterType
    name := handleForm reference.name }

def TemplateValueExprNodeFields.form (fields : TemplateValueExprNodeFields) :
    TemplateValueExprNodeFields :=
  { fields with
    packReferences := fields.packReferences.map TemplateValuePackReference.form
    type := handleForm fields.type
    resultType := fields.resultType.form
    entity := handleForm fields.entity
    name := handleForm fields.name
    qualifierType := fields.qualifierType.form }

namespace TemplateArgumentFields

/-- Everything about an argument that distinguishes the types it is given to. -/
def languageForm (fields : TemplateArgumentFields) : TemplateArgumentFields :=
  { fields with
    type := fields.type.form
    valueType := fields.valueType.form
    valueEntity := handleForm fields.valueEntity
    closureIdentity := handleForm fields.closureIdentity
    generatedPackCountType := fields.generatedPackCountType.form
    dependentValueQualifier := fields.dependentValueQualifier.form
    dependentValueName := handleForm fields.dependentValueName
    templateEntity := handleForm fields.templateEntity
    dependentTemplateQualifier := fields.dependentTemplateQualifier.form
    templateName := handleForm fields.templateName
    constantState := {} }

/-- What the structural comparison reads of it. -/
def comparedForm (fields : TemplateArgumentFields) : TemplateArgumentFields :=
  { fields.languageForm with
    nullKind := .none
    floatingValue := {}
    closureIdentity := {}
    expandsPackPattern := false }

end TemplateArgumentFields

/-- The fields of an argument that the structural comparison does not read. -/
structure UnreadFields where
  nullKind : TemplateNullKind
  floatingValue : Aburi.Numeric.FloatValue
  closureIdentity : ClosureIdentityId
  expandsPackPattern : Bool
  deriving DecidableEq

def TemplateArgumentFields.unread (fields : TemplateArgumentFields) : UnreadFields where
  nullKind := fields.nullKind
  floatingValue := fields.floatingValue
  closureIdentity := handleForm fields.closureIdentity
  expandsPackPattern := fields.expandsPackPattern

section Trees

variable (fieldsForm : TemplateArgumentFields → TemplateArgumentFields)

mutual

def TemplateArgument.form : TemplateArgument → TemplateArgument
  | .mk fields elements valueExpr countExpr _ =>
    .mk (fieldsForm fields) (templateArgumentsForm elements) valueExpr.form countExpr.form none

def templateArgumentsForm : List TemplateArgument → List TemplateArgument
  | [] => []
  | argument :: rest => argument.form :: templateArgumentsForm rest

def TemplateValueExpression.form : TemplateValueExpression → TemplateValueExpression
  | .mk nodes root _ => .mk (templateValueExprNodesForm nodes) root {}

def templateValueExprNodesForm : List TemplateValueExprNode → List TemplateValueExprNode
  | [] => []
  | node :: rest => node.form :: templateValueExprNodesForm rest

def TemplateValueExprNode.form : TemplateValueExprNode → TemplateValueExprNode
  | .mk fields arguments => .mk fields.form (templateArgumentsForm arguments)

end

def TypePayload.form : TypePayload → TypePayload
  | .pointer pointee => .pointer pointee.form
  | .blockPointer pointee => .blockPointer pointee.form
  | .memberPointer value => .memberPointer ⟨value.classType.form, value.memberType.form⟩
  | .reference value => .reference { value with referredType := value.referredType.form }
  | .array value =>
    .array { value with
      elementType := value.elementType.form
      sizeExpr := handleForm value.sizeExpr
      dependentSizeExpr := value.dependentSizeExpr.form fieldsForm }
  | .function value =>
    .function { value with
      returnType := value.returnType.form
      parameters := value.parameters.map TypeRef.form
      exceptionSpec :=
        ⟨value.exceptionSpec.kind, value.exceptionSpec.predicate.form fieldsForm⟩ }
  | .record value =>
    .record { value with entity := handleForm value.entity, name := handleForm value.name }
  | .enum value =>
    .enum { value with
      entity := handleForm value.entity
      name := handleForm value.name
      underlyingType := value.underlyingType.form }
  | .vector value => .vector { value with elementType := value.elementType.form }
  | .complex elementType => .complex elementType.form
  | .typedef value =>
    .typedef ⟨handleForm value.entity, handleForm value.name, value.underlyingType.form⟩
  | .typeParam value =>
    .typeParam { value with entity := handleForm value.entity, name := handleForm value.name }
  | .templateSpecialization value =>
    .templateSpecialization { value with
      templateName := handleForm value.templateName
      primaryTemplate := handleForm value.primaryTemplate
      arguments := templateArgumentsForm fieldsForm value.arguments
      spliceOperand := value.spliceOperand.form fieldsForm }
  | .aliasSpecialization value =>
    .aliasSpecialization
      { templateName := handleForm value.templateName
        aliasTemplate := handleForm value.aliasTemplate
        arguments := templateArgumentsForm fieldsForm value.arguments
        associatedType := value.associatedType.form }
  | .dependentName value =>
    .dependentName { value with
      qualifierType := value.qualifierType.form
      memberName := handleForm value.memberName
      templateArguments := templateArgumentsForm fieldsForm value.templateArguments }
  | .dependent debugName => .dependent (handleForm debugName)
  | .typeofExpr expr => .typeofExpr (handleForm expr)
  | .decltypeExpr value =>
    .decltypeExpr { value with
      expr := handleForm value.expr
      operandType := value.operandType.form
      dependentValueQualifier := value.dependentValueQualifier.form
      dependentValueName := handleForm value.dependentValueName
      operandExpression := value.operandExpression.form fieldsForm }
  | .builtinTransform value =>
    .builtinTransform { value with operandType := value.operandType.form }
  | .builtinPackElement arguments =>
    .builtinPackElement (templateArgumentsForm fieldsForm arguments)
  | .packIndex value =>
    .packIndex { value with
      packType := value.packType.form
      indexExpression := value.indexExpression.form fieldsForm
      expansions := value.expansions.map TypeRef.form }
  | .place objectType => .place objectType.form
  | .invalid => .invalid
  | .error => .error
  | .unknown debugName => .unknown debugName
  | .builtin value => .builtin value
  | .bitInt value => .bitInt value
  | .placeholder => .placeholder
  | .auto flavor => .auto flavor

/-- The name and the dependency flags of a specification only accompany a type. -/
def TypeSpec.form (spec : TypeSpec) : TypeSpec where
  kind := spec.kind
  payload := spec.payload.form fieldsForm
  canonical := handleForm spec.canonical
  desugared := handleForm spec.desugared
  resolved := handleForm spec.resolved

end Trees

/-- The two specifications describe one type of the language. -/
def SameType (lhs rhs : TypeSpec) : Prop :=
  lhs.form TemplateArgumentFields.languageForm = rhs.form TemplateArgumentFields.languageForm

/-- The two expressions are one expression of the language. -/
def SameValueExpression (lhs rhs : TemplateValueExpression) : Prop :=
  lhs.form TemplateArgumentFields.languageForm = rhs.form TemplateArgumentFields.languageForm

section Unread

mutual

/-- The unread fields of an argument and of the arguments in it, in the order of the walk. -/
def TemplateArgument.unread : TemplateArgument → List UnreadFields
  | .mk fields elements valueExpr countExpr _ =>
    fields.unread :: (valueExpr.unread ++ countExpr.unread ++ templateArgumentsUnread elements)

def templateArgumentsUnread : List TemplateArgument → List UnreadFields
  | [] => []
  | argument :: rest => argument.unread ++ templateArgumentsUnread rest

def TemplateValueExpression.unread : TemplateValueExpression → List UnreadFields
  | .mk nodes _ _ => templateValueExprNodesUnread nodes

def templateValueExprNodesUnread : List TemplateValueExprNode → List UnreadFields
  | [] => []
  | node :: rest => node.unread ++ templateValueExprNodesUnread rest

def TemplateValueExprNode.unread : TemplateValueExprNode → List UnreadFields
  | .mk _ arguments => templateArgumentsUnread arguments

end

def TypePayload.unread : TypePayload → List UnreadFields
  | .array value => value.dependentSizeExpr.unread
  | .function value => value.exceptionSpec.predicate.unread
  | .templateSpecialization value =>
    value.spliceOperand.unread ++ templateArgumentsUnread value.arguments
  | .aliasSpecialization value => templateArgumentsUnread value.arguments
  | .dependentName value => templateArgumentsUnread value.templateArguments
  | .decltypeExpr value => value.operandExpression.unread
  | .builtinPackElement arguments => templateArgumentsUnread arguments
  | .packIndex value => value.indexExpression.unread
  | _ => []

end Unread

end Aburi.Cir
