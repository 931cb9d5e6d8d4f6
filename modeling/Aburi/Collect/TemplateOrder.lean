import Aburi.Collect.ConversionSequences
import Mathlib.Data.List.Zip

/-!
# Partial ordering of function templates in a call

`Session::compare_function_template_specializations`, with the partial ordering it
rests on.  Only the contexts of overload resolution are modelled: calls, rewritten
calls and calls of conversion functions.  Deducing one type from another is a parameter.

Both directions of the deduction are one definition, applied to either side.
-/

namespace Aburi.Collect

open Prod Bool

open Aburi.Cir (TypeId EntityId NameId TypeRef)

inductive EntityKind where
  | function | method | constructor | destructor | other
  deriving DecidableEq

structure Entity where
  kind : EntityKind
  name : NameId := {}
  type : TypeId
  parent : EntityId := {}
  isStaticMemberFunction : Bool := false

inductive ConstraintSatisfactionKind where
  | unconstrained | dependent | satisfied | unsatisfied | invalid
  deriving DecidableEq

structure RecordMethodFact where
  isStatic : Bool := false
  constraintSatisfaction : ConstraintSatisfactionKind := .unconstrained
  /-- the record an inherited constructor comes from -/
  inheritedConstructor : Option EntityId := none
  associatedConstraintFingerprint : UInt64 := 0
  moreConstrainedThan : List UInt64 := []

/-- What the ordering reads of the fact about a template specialization. -/
structure SpecializationPatternFact where
  templateEntity : EntityId
  patternType : TypeId

structure OverloadFile extends ConversionFile where
  /-- nothing for an entity that is not valid -/
  entity : EntityId → Option Entity
  methodFact : EntityId → Option RecordMethodFact
  templateSpecialization : EntityId → Option SpecializationPatternFact
  hasTemplateInfo : EntityId → Bool
  referenceType : TypeRef → Aburi.Cir.ReferenceKind → TypeId
  /-- asked of the constraints two templates introduce -/
  declarationMoreConstrained : EntityId → EntityId → Bool

structure OrderingCandidate where
  templateEntity : EntityId
  originalFunctionType : TypeId
  isNonStaticMember : Bool := false
  memberClassType : TypeRef := {}

/-- Template argument deduction, for the parameters of one of two candidates from the
types of the other. -/
structure Deduction (Bindings : Type) where
  /-- the bindings of the first candidate before anything has been deduced -/
  start : OrderingCandidate → OrderingCandidate → Bindings
  unify : TypeId → TypeId → Bindings → Bool × Bindings
  ignoredArgumentPack : Bindings → Bool
  resetPackBindings : OrderingCandidate → Bindings → Bindings
  usedParametersAreBound : OrderingCandidate → Bindings → Bool

inductive OrderingContextKind where
  | call | rewrittenCall | conversionCall
  deriving DecidableEq

structure OrderingContext where
  kind : OrderingContextKind
  lhsCallArgumentCount : ℕ := 0
  rhsCallArgumentCount : ℕ := 0
  lhsReversed : Bool := false
  rhsReversed : Bool := false

def OrderingContext.call (lhsArguments rhsArguments : ℕ) (lhsIsReversed rhsIsReversed : Bool) :
    OrderingContext where
  kind := if lhsIsReversed || rhsIsReversed then .rewrittenCall else .call
  lhsCallArgumentCount := lhsArguments
  rhsCallArgumentCount := rhsArguments
  lhsReversed := lhsIsReversed
  rhsReversed := rhsIsReversed

def OrderingContext.swap (context : OrderingContext) : OrderingContext where
  kind := context.kind
  lhsCallArgumentCount := context.rhsCallArgumentCount
  rhsCallArgumentCount := context.lhsCallArgumentCount
  lhsReversed := context.rhsReversed
  rhsReversed := context.lhsReversed

inductive SpecializationOrder where
  | unordered | lhsMoreSpecialized | rhsMoreSpecialized
  deriving DecidableEq

def SpecializationOrder.swap : SpecializationOrder → SpecializationOrder
  | unordered => unordered
  | lhsMoreSpecialized => rhsMoreSpecialized
  | rhsMoreSpecialized => lhsMoreSpecialized

structure ParameterEntry where
  type : TypeRef
  fromPack : Bool := false

structure Projection where
  parameters : List ParameterEntry
  trailingPack : Bool
  packParticipates : Bool
  valid : Bool

def projectEntries (argumentCount : ℕ) :
    List ParameterEntry → List ParameterEntry → Bool → List ParameterEntry × Bool
  | [], parameters, participates => (parameters, participates)
  | entry :: rest, parameters, participates =>
    if !entry.fromPack then
      projectEntries argumentCount rest
        (if parameters.length < argumentCount then parameters ++ [entry] else parameters)
        participates
    else
      let suffix := rest.countP fun later => !later.fromPack
      let expansion := argumentCount - parameters.length - suffix
      projectEntries argumentCount rest (parameters ++ List.replicate expansion entry)
        (participates || expansion != 0)

def projectToArgumentCount (entries : List ParameterEntry) (argumentCount : ℕ)
    (allowEllipsis : Bool) : Projection :=
  let (parameters, participates) := projectEntries argumentCount entries [] false
  { parameters := parameters
    trailingPack := entries.getLast?.any ParameterEntry.fromPack
    packParticipates := participates
    valid := !(parameters.length < argumentCount && !allowEllipsis) }

def Projection.unusedPack (projection : Projection) : Bool :=
  projection.trailingPack && !projection.packParticipates

/-- A parameter type without its reference. -/
structure Transformed where
  stripped : TypeId
  wasReference : Bool := false
  wasLvalueReference : Bool := false
  referredQualifiers : UInt8 := 0

def moreCv (a b : UInt8) : Bool :=
  a != b && b &&& ~~~a == 0

/-- The first reference is the less specialized one. -/
def lessSpecializedReference (a b : Transformed) : Bool :=
  (b.wasLvalueReference && !a.wasLvalueReference) ||
    moreCv b.referredQualifiers a.referredQualifiers

namespace OverloadFile

variable (file : OverloadFile)

def parameterEntries (candidate : OrderingCandidate) (function : FunctionTypePayload)
    (other : OrderingCandidate) (otherFunction : FunctionTypePayload) :
    List ParameterEntry :=
  let otherFirstIsRvalue :=
    if other.isNonStaticMember then otherFunction.memberRefQualifier == .rvalue
    else
      match otherFunction.parameters with
      | first :: _ => file.isRvalueReference first.type
      | [] => false
  let written := function.parameters.mapIdx fun i parameter =>
    { type := parameter, fromPack := function.parameterPackFlags.getD i false }
  if candidate.isNonStaticMember then
    if !candidate.memberClassType.type.valid then []
    else
      let qualifiers := candidate.memberClassType.qualifiers
        ||| (if function.memberIsConst then 1 else 0)
        ||| (if function.memberIsVolatile then 2 else 0)
      let rvalue := function.memberRefQualifier == .rvalue ||
        (function.memberRefQualifier == .none && otherFirstIsRvalue)
      let object := file.referenceType
        { candidate.memberClassType with qualifiers := qualifiers }
        (if rvalue then .rvalue else .lvalue)
      { type := { type := object } } :: written
  else written

/-- Nothing for a type that is not valid. -/
def transform (parameter : TypeRef) : Option Transformed :=
  let strip (out : Transformed) :=
    if (file.shape out.stripped).isSome then some out else none
  match file.shape (file.resolvedType parameter.type) with
  | none => none
  | some (.lvalueReference referred) =>
    strip {
      stripped := file.resolvedType referred.type
      wasReference := true
      wasLvalueReference := true
      referredQualifiers := referred.qualifiers }
  | some (.rvalueReference referred) =>
    strip {
      stripped := file.resolvedType referred.type
      wasReference := true
      referredQualifiers := referred.qualifiers }
  | some _ => some { stripped := file.resolvedType parameter.type }

end OverloadFile

/-- One side of the comparison: whether the candidate is still at least as specialized
as the other, and what has been deduced into the other one from its types. -/
structure OrderingSide (Bindings : Type) where
  atLeastAsSpecialized : Bool
  deduced : Bindings

section Compare

variable {Bindings : Type} (deduction : Deduction Bindings)

def deduceParameter (pattern : OrderingCandidate) (argument : Transformed)
    (argumentFromPack : Bool) (parameter : Transformed) (parameterFromPack : Bool)
    (bindings : Bindings) : Bool × Bindings :=
  if !argumentFromPack || parameterFromPack then
    let bindings :=
      if parameterFromPack then deduction.resetPackBindings pattern bindings else bindings
    let (deduces, bindings) :=
      deduction.unify parameter.stripped argument.stripped bindings
    (deduces && !deduction.ignoredArgumentPack bindings, bindings)
  else (false, bindings)

/-- The side of `own` after one more pair of parameters. -/
def compareSide (ownDeduction otherDeduction : Bool × Bindings) (own other : Transformed)
    (side : OrderingSide Bindings) : OrderingSide Bindings where
  atLeastAsSpecialized :=
    side.atLeastAsSpecialized && ownDeduction.1 &&
      !(ownDeduction.1 && otherDeduction.1 && own.wasReference && other.wasReference &&
        lessSpecializedReference own other)
  deduced := ownDeduction.2

variable (file : OverloadFile) (lhs rhs : OrderingCandidate)

/-- Nothing when a type is not valid. -/
def compareTypePair (left right : ParameterEntry)
    (sides : OrderingSide Bindings × OrderingSide Bindings) :
    Option (OrderingSide Bindings × OrderingSide Bindings) :=
  match file.transform left.type, file.transform right.type with
  | some leftType, some rightType =>
    let intoRhs := deduceParameter deduction rhs leftType left.fromPack rightType
      right.fromPack sides.1.deduced
    let intoLhs := deduceParameter deduction lhs rightType right.fromPack leftType
      left.fromPack sides.2.deduced
    some (compareSide intoRhs intoLhs leftType rightType sides.1,
      compareSide intoLhs intoRhs rightType leftType sides.2)
  | _, _ => none

/-- The loop over the parameters.  Nothing when neither candidate is at least as
specialized as the other any more. -/
def compareTypePairs : List (ParameterEntry × ParameterEntry) →
    OrderingSide Bindings × OrderingSide Bindings →
    Option (OrderingSide Bindings × OrderingSide Bindings)
  | [], sides => some sides
  | (left, right) :: rest, sides =>
    match compareTypePair deduction file lhs rhs left right sides with
    | none => none
    | some sides =>
      if !sides.1.atLeastAsSpecialized && !sides.2.atLeastAsSpecialized then none
      else compareTypePairs rest sides

def startSides : OrderingSide Bindings × OrderingSide Bindings :=
  (⟨true, deduction.start rhs lhs⟩, ⟨true, deduction.start lhs rhs⟩)

/-- What the side comes to: every used parameter has to be bound. -/
def finishSide (other : OrderingCandidate) (side : OrderingSide Bindings) : Bool :=
  side.atLeastAsSpecialized && deduction.usedParametersAreBound other side.deduced

/-- The comparison of the parameters that take part in a call. -/
def compareProjections (lhsProjection rhsProjection : Projection) : Bool × Bool :=
  if lhsProjection.valid && rhsProjection.valid &&
      lhsProjection.parameters.length == rhsProjection.parameters.length then
    match compareTypePairs deduction file lhs rhs
        (lhsProjection.parameters.zip rhsProjection.parameters)
        (startSides deduction lhs rhs) with
    | none => (false, false)
    | some sides =>
      let lhsAtLeast := finishSide deduction rhs sides.1
      let rhsAtLeast := finishSide deduction lhs sides.2
      (lhsAtLeast && !(rhsAtLeast && lhsProjection.unusedPack && !rhsProjection.unusedPack),
        rhsAtLeast && !(lhsAtLeast && rhsProjection.unusedPack && !lhsProjection.unusedPack))
  else (false, false)

/-- `Session::function_template_partial_ordering`: whether the first candidate is at
least as specialized as the second, and the second as the first. -/
def functionTemplatePartialOrdering (context : OrderingContext) : Bool × Bool :=
  match file.functionPayloadOf lhs.originalFunctionType,
      file.functionPayloadOf rhs.originalFunctionType with
  | some lhsFunction, some rhsFunction =>
    let lhsEntries := file.parameterEntries lhs lhsFunction rhs rhsFunction
    let rhsEntries := file.parameterEntries rhs rhsFunction lhs lhsFunction
    let lhsMissing := lhs.isNonStaticMember && lhsEntries.isEmpty
    let rhsMissing := rhs.isNonStaticMember && rhsEntries.isEmpty
    if context.kind = .conversionCall then
      match compareTypePair deduction file lhs rhs { type := lhsFunction.returnType }
          { type := rhsFunction.returnType } (startSides deduction lhs rhs) with
      | some sides => (sides.1.atLeastAsSpecialized, sides.2.atLeastAsSpecialized)
      | none => (false, false)
    else if lhsMissing || rhsMissing then (false, false)
    else
      let lhsProjection := projectToArgumentCount
        (if context.lhsReversed && !context.rhsReversed then lhsEntries.reverse
          else lhsEntries)
        context.lhsCallArgumentCount lhsFunction.isVariadic
      let rhsProjection := projectToArgumentCount
        (if context.rhsReversed && !context.lhsReversed then rhsEntries.reverse
          else rhsEntries)
        context.rhsCallArgumentCount rhsFunction.isVariadic
      compareProjections deduction file lhs rhs lhsProjection rhsProjection
  | _, _ => (false, false)

end Compare

namespace OverloadFile

variable (file : OverloadFile)

def functionTemplateOrderingCandidate (template : EntityId) (functionType : TypeId) :
    OrderingCandidate :=
  if file.hasTemplateInfo template then
    let kind := (file.entity template).map Entity.kind
    let isMember :=
      match file.methodFact template with
      | some method =>
        !method.isStatic && kind != some .constructor && kind != some .destructor
      | none => false
    let memberClass : TypeRef :=
      match file.entity template with
      | some entity =>
        match (if entity.parent.valid then file.entity entity.parent else none) with
        | some owner => { type := owner.type }
        | none => {}
      | none => {}
    { templateEntity := template
      originalFunctionType := functionType
      isNonStaticMember := isMember
      memberClassType := bif isMember then memberClass else {} }
  else { templateEntity := template, originalFunctionType := functionType }

/-- What two templates that are at least as specialized as each other come to. -/
def compareTemplateConstraints (lhs rhs : EntityId) : SpecializationOrder :=
  if file.hasTemplateInfo lhs && file.hasTemplateInfo rhs then
    let lhsMore := file.declarationMoreConstrained lhs rhs
    let rhsMore := file.declarationMoreConstrained rhs lhs
    if lhsMore != rhsMore then
      if lhsMore then .lhsMoreSpecialized else .rhsMoreSpecialized
    else .unordered
  else .unordered

/-- `Session::compare_function_template_specializations` -/
def compareFunctionTemplateSpecializations {Bindings : Type}
    (deduction : Deduction Bindings) (lhs rhs : EntityId) (context : OrderingContext) :
    SpecializationOrder :=
  if !lhs.valid || !rhs.valid || (file.entity lhs).isNone || (file.entity rhs).isNone then
    .unordered
  else
    match file.templateSpecialization lhs, file.templateSpecialization rhs with
    | some lhsFact, some rhsFact =>
      if lhsFact.templateEntity == rhsFact.templateEntity ||
          !lhsFact.patternType.valid || !rhsFact.patternType.valid then
        .unordered
      else
        let (lhsAtLeast, rhsAtLeast) := functionTemplatePartialOrdering deduction file
          (file.functionTemplateOrderingCandidate lhsFact.templateEntity lhsFact.patternType)
          (file.functionTemplateOrderingCandidate rhsFact.templateEntity rhsFact.patternType)
          context
        if lhsAtLeast && !rhsAtLeast then .lhsMoreSpecialized
        else if rhsAtLeast && !lhsAtLeast then .rhsMoreSpecialized
        else if !lhsAtLeast || !rhsAtLeast then .unordered
        else
          file.compareTemplateConstraints lhsFact.templateEntity rhsFact.templateEntity
    | _, _ => .unordered

end OverloadFile

section Swap

variable {Bindings : Type} {deduction : Deduction Bindings} {file : OverloadFile}

theorem compareTypePair_swap {lhs rhs : OrderingCandidate} (left right : ParameterEntry)
    (sides : OrderingSide Bindings × OrderingSide Bindings) :
    compareTypePair deduction file rhs lhs right left sides.swap =
      (compareTypePair deduction file lhs rhs left right sides).map swap := by
  unfold compareTypePair
  cases file.transform left.type with
  | none | some leftType => cases file.transform right.type <;> rfl

theorem compareTypePairs_swap {lhs rhs : OrderingCandidate}
    (pairs : List (ParameterEntry × ParameterEntry))
    (sides : OrderingSide Bindings × OrderingSide Bindings) :
    compareTypePairs deduction file rhs lhs (pairs.map swap) sides.swap =
      (compareTypePairs deduction file lhs rhs pairs sides).map swap := by
  induction pairs generalizing sides with
  | nil => rfl
  | cons pair rest induction =>
    obtain ⟨left, right⟩ := pair
    simp only [List.map_cons, swap_prod_mk, compareTypePairs]
    rw [compareTypePair_swap]
    cases compareTypePair deduction file lhs rhs left right sides with
    | none => rfl
    | some next =>
      obtain ⟨⟨lhsAtLeast, intoRhs⟩, ⟨rhsAtLeast, intoLhs⟩⟩ := next
      have further := induction (⟨lhsAtLeast, intoRhs⟩, ⟨rhsAtLeast, intoLhs⟩)
      cases lhsAtLeast <;> cases rhsAtLeast
      · rfl
      · exact further
      · exact further
      · exact further

theorem ifBoth_swap {both both' : Prop} [Decidable both] [Decidable both']
    {first second : Bool × Bool} (agree : both' ↔ both) (swapped : second = first.swap) :
    (if both' then second else (false, false)) = (if both then first else (false, false)).swap := by
  by_cases holds : both
  · rw [if_pos holds, if_pos (agree.mpr holds)]
    exact swapped
  · rw [if_neg holds, if_neg (mt agree.mp holds)]
    rfl

theorem compareProjections_swap {lhs rhs : OrderingCandidate}
    (lhsProjection rhsProjection : Projection) :
    compareProjections deduction file rhs lhs rhsProjection lhsProjection =
      (compareProjections deduction file lhs rhs lhsProjection rhsProjection).swap := by
  have pairs := @compareTypePairs_swap _ deduction file lhs rhs
    (lhsProjection.parameters.zip rhsProjection.parameters) (startSides deduction lhs rhs)
  rw [List.zip_swap] at pairs
  have start : startSides deduction rhs lhs = (startSides deduction lhs rhs).swap := rfl
  unfold compareProjections
  rw [start, pairs]
  apply ifBoth_swap
  · simp only [and_eq_true, beq_iff_eq]
    tauto
  · cases compareTypePairs deduction file lhs rhs
      (lhsProjection.parameters.zip rhsProjection.parameters)
      (startSides deduction lhs rhs) <;> rfl

/-- The partial ordering does not depend on which candidate is named first. -/
theorem functionTemplatePartialOrdering_swap (lhs rhs : OrderingCandidate)
    (context : OrderingContext) :
    functionTemplatePartialOrdering deduction file rhs lhs context.swap =
      (functionTemplatePartialOrdering deduction file lhs rhs context).swap := by
  have start : startSides deduction rhs lhs = (startSides deduction lhs rhs).swap := rfl
  unfold functionTemplatePartialOrdering
  cases file.functionPayloadOf lhs.originalFunctionType with
  | none => cases file.functionPayloadOf rhs.originalFunctionType <;> rfl
  | some lhsFunction =>
    cases file.functionPayloadOf rhs.originalFunctionType with
    | none => rfl
    | some rhsFunction =>
      dsimp only [OrderingContext.swap]
      rw [start, compareTypePair_swap]
      by_cases isConversion : context.kind = .conversionCall
      · simp only [isConversion, if_true]
        cases compareTypePair deduction file lhs rhs { type := lhsFunction.returnType }
          { type := rhsFunction.returnType } (startSides deduction lhs rhs) <;> rfl
      · simp only [isConversion, if_false]
        generalize (lhs.isNonStaticMember && _) = lhsMissing
        generalize (rhs.isNonStaticMember && _) = rhsMissing
        cases lhsMissing <;> cases rhsMissing
        · exact compareProjections_swap _ _
        · rfl
        · rfl
        · rfl

theorem compareTemplateConstraints_swap (lhs rhs : EntityId) :
    file.compareTemplateConstraints rhs lhs = (file.compareTemplateConstraints lhs rhs).swap := by
  unfold OverloadFile.compareTemplateConstraints
  cases file.hasTemplateInfo lhs <;> cases file.hasTemplateInfo rhs <;>
    cases file.declarationMoreConstrained lhs rhs <;>
    cases file.declarationMoreConstrained rhs lhs <;> rfl

theorem compareFunctionTemplateSpecializations_swap (lhs rhs : EntityId)
    (context : OrderingContext) :
    file.compareFunctionTemplateSpecializations deduction rhs lhs context.swap =
      (file.compareFunctionTemplateSpecializations deduction lhs rhs context).swap := by
  unfold OverloadFile.compareFunctionTemplateSpecializations
  cases lhs.valid <;> cases rhs.valid <;> cases (file.entity lhs).isNone <;>
    cases (file.entity rhs).isNone <;> try rfl
  cases file.templateSpecialization lhs with
  | none => cases file.templateSpecialization rhs <;> rfl
  | some lhsFact =>
    cases file.templateSpecialization rhs with
    | none => rfl
    | some rhsFact =>
      simp only [Bool.not_true, Bool.or_self, false_eq_true, if_false]
      rw [functionTemplatePartialOrdering_swap, compareTemplateConstraints_swap,
        beq_comm (a := rhsFact.templateEntity)]
      generalize functionTemplatePartialOrdering deduction file _ _ context = ordering
      obtain ⟨lhsAtLeast, rhsAtLeast⟩ := ordering
      cases lhsFact.templateEntity == rhsFact.templateEntity <;>
        cases lhsFact.patternType.valid <;> cases rhsFact.patternType.valid <;>
        cases lhsAtLeast <;> cases rhsAtLeast <;> rfl

end Swap

end Aburi.Collect
