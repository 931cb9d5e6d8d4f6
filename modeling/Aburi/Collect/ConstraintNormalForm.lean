import Aburi.Collect.TemplateEquivalence
import Mathlib.Data.List.Sort

/-!
# Normal forms of constraints

Atomic constraints with their parameter mappings, normal forms as trees, the
comparison of normal forms and the subsumption by which declarations are
ordered.  A constraint without a normal form could not be normalized.
-/

namespace Aburi.Collect

open Aburi.Cir

inductive TemplateParameterKind where
  | type | nonType | template
  deriving DecidableEq

inductive TemplateTemplateParameterKind where
  | type | variableTemplate | conceptTemplate
  deriving DecidableEq

inductive ConstraintFoldOperator where
  | logicalAnd | logicalOr
  deriving DecidableEq

inductive ConstraintFoldExpansionParameterKind where
  | function | type | value | template
  deriving DecidableEq

structure ConstraintFoldExpansionParameter where
  kind : ConstraintFoldExpansionParameterKind := .type
  name : String := ""
  parameterDepth : UInt32 := 0
  parameterIndex : UInt32 := noExtentParam
  parameterEntity : EntityId := {}
  owningTemplateEntity : EntityId := {}
  templateTemplateParameterKind : TemplateTemplateParameterKind := .type

structure ConstraintParameterMapping where
  parameterKind : TemplateParameterKind := .type
  parameterDepth : UInt32 := 0
  parameterIndex : UInt32 := noExtentParam
  parameterEntity : EntityId := {}
  parameterTemplateTemplateKind : TemplateTemplateParameterKind := .type
  argument : TemplateArgument := .plain {}
  argumentPack : Option (List TemplateArgument) := none

def ConstraintParameterMapping.sameParameterAs (mapping other : ConstraintParameterMapping) :
    Bool :=
  if mapping.parameterEntity.valid || other.parameterEntity.valid then
    mapping.parameterEntity == other.parameterEntity
  else
    mapping.parameterKind == other.parameterKind &&
      mapping.parameterDepth == other.parameterDepth &&
      mapping.parameterIndex == other.parameterIndex &&
      (mapping.parameterKind != .template ||
        mapping.parameterTemplateTemplateKind == other.parameterTemplateTemplateKind)

structure ConstraintAtomIdentity where
  appearanceOwner : EntityId := {}
  expressionBegin : ℕ := 0
  expressionEnd : ℕ := 0
  parameterMapping : List ConstraintParameterMapping := []
  declarationEquivalenceKey : UInt64 := 0

def ConstraintAtomIdentity.sameAppearanceAs (atom other : ConstraintAtomIdentity) : Bool :=
  atom.appearanceOwner == other.appearanceOwner &&
    atom.expressionBegin == other.expressionBegin && atom.expressionEnd == other.expressionEnd

/-- The fields of a node that is an atomic or a concept-dependent constraint. -/
structure ConstraintAtom where
  atom : ConstraintAtomIdentity := {}
  conceptIdEntity : EntityId := {}
  conceptIdTemplateParameterIndex : UInt32 := noExtentParam
  conceptIdDependentQualifier : TypeRef := {}
  conceptIdName : NameId := {}
  conceptIdQualifiedName : Bool := false
  conceptIdArguments : List TemplateArgument := []

inductive NormalizedConstraint where
  | atomic (node : ConstraintAtom)
  | conceptDependent (node : ConstraintAtom)
  | conjunction (lhs rhs : NormalizedConstraint)
  | disjunction (lhs rhs : NormalizedConstraint)
  | foldExpanded (op : ConstraintFoldOperator)
      (expansionParameters : List ConstraintFoldExpansionParameter)
      (patternArgumentBindings : List TemplateArgumentBinding) (constraint : NormalizedConstraint)

/-- The file that is compiled, and how deep its types are compared. -/
structure Session where
  file : TemplateFile := {}
  levels : ℕ := 0

namespace Session

variable (session : Session)

def refsEqual : TypeRef → TypeRef → Bool :=
  templateTypeRefsEquivalent session.file session.levels

def argumentsEquivalent : TemplateArgument → TemplateArgument → Bool :=
  templateArgumentsEquivalent session.refsEqual

def argumentListsEquivalent : List TemplateArgument → List TemplateArgument → Bool :=
  templateArgumentListsEquivalent session.refsEqual

def packsEquivalent : Option (List TemplateArgument) → Option (List TemplateArgument) → Bool
  | none, none => true
  | some lhs, some rhs => session.argumentListsEquivalent lhs rhs
  | _, _ => false

/-- The search for the mapping of a parameter among those that are not matched
yet.  The first one decides; the others stay. -/
def matchMapping (lhs : ConstraintParameterMapping) :
    List ConstraintParameterMapping → Option (List ConstraintParameterMapping)
  | [] => none
  | rhs :: rest =>
    if lhs.sameParameterAs rhs then
      if session.argumentsEquivalent lhs.argument rhs.argument &&
          session.packsEquivalent lhs.argumentPack rhs.argumentPack then some rest
      else none
    else (matchMapping lhs rest).map (rhs :: ·)

def mappingsMatch :
    List ConstraintParameterMapping → List ConstraintParameterMapping → Bool
  | [], _ => true
  | lhs :: rest, unmatched =>
    match session.matchMapping lhs unmatched with
    | some unmatched => mappingsMatch rest unmatched
    | none => false

def constraintAtomsIdentical (lhs rhs : ConstraintAtomIdentity) : Bool :=
  lhs.sameAppearanceAs rhs && lhs.parameterMapping.length == rhs.parameterMapping.length &&
    session.mappingsMatch lhs.parameterMapping rhs.parameterMapping

def constraintAtomsDeclarationEquivalent (lhs rhs : ConstraintAtomIdentity) : Bool :=
  lhs.declarationEquivalenceKey != 0 &&
    lhs.declarationEquivalenceKey == rhs.declarationEquivalenceKey &&
    lhs.parameterMapping.length == rhs.parameterMapping.length &&
    session.constraintAtomsIdentical
      { lhs with appearanceOwner := {}, expressionBegin := 0, expressionEnd := 0 }
      { rhs with appearanceOwner := {}, expressionBegin := 0, expressionEnd := 0 }

def conceptIdsEquivalent (lhs rhs : ConstraintAtom) : Bool :=
  lhs.conceptIdTemplateParameterIndex == rhs.conceptIdTemplateParameterIndex &&
    (lhs.conceptIdTemplateParameterIndex != noExtentParam ||
      lhs.conceptIdEntity == rhs.conceptIdEntity) &&
    session.refsEqual lhs.conceptIdDependentQualifier rhs.conceptIdDependentQualifier &&
    (lhs.conceptIdTemplateParameterIndex != noExtentParam ||
      lhs.conceptIdName == rhs.conceptIdName) &&
    lhs.conceptIdQualifiedName == rhs.conceptIdQualifiedName &&
    session.argumentListsEquivalent lhs.conceptIdArguments rhs.conceptIdArguments

/-- Parameters are named by their place, else by entity, by the template that
owns them, or by name. -/
def foldExpansionParametersAgree (lhs rhs : ConstraintFoldExpansionParameter) : Bool :=
  let lhsHasSlot := lhs.parameterIndex != noExtentParam
  let rhsHasSlot := rhs.parameterIndex != noExtentParam
  lhs.kind == rhs.kind &&
    (lhs.kind != .template ||
      lhs.templateTemplateParameterKind == rhs.templateTemplateParameterKind) &&
    if lhsHasSlot || rhsHasSlot then
      lhsHasSlot && rhsHasSlot && lhs.parameterDepth == rhs.parameterDepth &&
        lhs.parameterIndex == rhs.parameterIndex
    else if lhs.parameterEntity.valid || rhs.parameterEntity.valid then
      lhs.parameterEntity == rhs.parameterEntity
    else if lhs.owningTemplateEntity.valid || rhs.owningTemplateEntity.valid then
      lhs.owningTemplateEntity == rhs.owningTemplateEntity
    else lhs.name == rhs.name

def foldExpansionParametersEquivalent
    (lhs rhs : List ConstraintFoldExpansionParameter) : Bool :=
  listsEqual foldExpansionParametersAgree lhs rhs

/-- The test of the subsumption, which has a body of its own but is the same. -/
def foldExpansionParametersCompatible
    (lhs rhs : List ConstraintFoldExpansionParameter) : Bool :=
  listsEqual foldExpansionParametersAgree lhs rhs

def foldBindingsEquivalent (lhs rhs : List TemplateArgumentBinding) : Bool :=
  listsEqual (fun left right => left.kind == right.kind &&
    session.argumentListsEquivalent left.arguments right.arguments) lhs rhs

def normalizedConstraintsEquivalent (declarationEquivalence : Bool) :
    NormalizedConstraint → NormalizedConstraint → Bool
  | .atomic lhs, .atomic rhs =>
    session.conceptIdsEquivalent lhs rhs &&
      (session.constraintAtomsIdentical lhs.atom rhs.atom ||
        declarationEquivalence && session.constraintAtomsDeclarationEquivalent lhs.atom rhs.atom)
  | .conceptDependent lhs, .conceptDependent rhs => session.conceptIdsEquivalent lhs rhs
  | .conjunction lhs lhs', .conjunction rhs rhs' | .disjunction lhs lhs', .disjunction rhs rhs' =>
    normalizedConstraintsEquivalent declarationEquivalence lhs rhs &&
      normalizedConstraintsEquivalent declarationEquivalence lhs' rhs'
  | .foldExpanded op parameters bindings constraint,
      .foldExpanded op' parameters' bindings' constraint' =>
      session.foldBindingsEquivalent bindings bindings' && op == op' &&
        foldExpansionParametersEquivalent parameters parameters' &&
        normalizedConstraintsEquivalent declarationEquivalence constraint constraint'
  | _, _ => false

end Session

namespace NormalizedConstraint

def containsConceptDependent : NormalizedConstraint → Bool
  | .conceptDependent _ => true
  | .conjunction lhs rhs | .disjunction lhs rhs =>
    lhs.containsConceptDependent || rhs.containsConceptDependent
  | .foldExpanded _ _ _ constraint => constraint.containsConceptDependent
  | .atomic _ => false

def combineClauses (left right : List (List NormalizedConstraint)) :
    List (List NormalizedConstraint) :=
  left.flatMap fun lhsClause => right.map fun rhsClause => lhsClause ++ rhsClause

def dnf : NormalizedConstraint → Option (List (List NormalizedConstraint))
  | .conceptDependent _ => none
  | .conjunction lhs rhs =>
    match lhs.dnf, rhs.dnf with
    | some lhsClauses, some rhsClauses => some (combineClauses lhsClauses rhsClauses)
    | _, _ => none
  | .disjunction lhs rhs =>
    match lhs.dnf, rhs.dnf with
    | some lhsClauses, some rhsClauses => some (lhsClauses ++ rhsClauses)
    | _, _ => none
  | node => some [[node]]

def cnf : NormalizedConstraint → Option (List (List NormalizedConstraint))
  | .conceptDependent _ => none
  | .conjunction lhs rhs =>
    match lhs.cnf, rhs.cnf with
    | some lhsClauses, some rhsClauses => some (lhsClauses ++ rhsClauses)
    | _, _ => none
  | .disjunction lhs rhs =>
    match lhs.cnf, rhs.cnf with
    | some lhsClauses, some rhsClauses => some (combineClauses lhsClauses rhsClauses)
    | _, _ => none
  | node => some [[node]]

/-- How deep folds are nested. -/
def foldDepth : NormalizedConstraint → ℕ
  | .atomic _ | .conceptDependent _ => 0
  | .conjunction lhs rhs | .disjunction lhs rhs => max lhs.foldDepth rhs.foldDepth
  | .foldExpanded _ _ _ constraint => constraint.foldDepth + 1

end NormalizedConstraint

namespace Session

variable (session : Session)

/-- The clauses of two forms against each other, for a comparison of leaves. -/
def clausesSubsume (leafSubsumes : NormalizedConstraint → NormalizedConstraint → Bool)
    (lhs rhs : NormalizedConstraint) : Bool :=
  match lhs.dnf, rhs.cnf with
  | some lhsDnf, some rhsCnf =>
    lhsDnf.all fun disjunctiveClause => rhsCnf.all fun conjunctiveClause =>
      disjunctiveClause.any fun lhsLeaf => conjunctiveClause.any fun rhsLeaf =>
        leafSubsumes lhsLeaf rhsLeaf
  | _, _ => false

/-- The comparison of leaves in forms whose folds are nested up to a depth. -/
def leafSubsumesWithin : ℕ → NormalizedConstraint → NormalizedConstraint → Bool
  | _, .atomic lhs, .atomic rhs =>
    session.normalizedConstraintsEquivalent false (.atomic lhs) (.atomic rhs)
  | depth + 1, .foldExpanded op parameters _ constraint,
      .foldExpanded op' parameters' _ constraint' =>
      op == op' && foldExpansionParametersCompatible parameters parameters' &&
        clausesSubsume (leafSubsumesWithin depth) constraint constraint'
  | _, _, _ => false

def normalizedConstraintSubsumes (lhs rhs : NormalizedConstraint) : Bool :=
  clausesSubsume (session.leafSubsumesWithin lhs.foldDepth) lhs rhs

end Session

inductive IntroducedConstraintKind where
  | templateParameterTypeConstraint | templateHeadRequires | functionParameterTypeConstraint
  | functionTrailingRequires
  deriving DecidableEq

structure IntroducedConstraint where
  kind : IntroducedConstraintKind := .templateHeadRequires
  normalForm : Option NormalizedConstraint := none

def associatedConstraintOrder : IntroducedConstraintKind → ℕ
  | .templateParameterTypeConstraint => 0
  | .templateHeadRequires => 1
  | .functionParameterTypeConstraint => 2
  | .functionTrailingRequires => 3

/-- A stable sort. -/
def sortConstraints (constraints : List IntroducedConstraint) : List IntroducedConstraint :=
  constraints.insertionSort fun lhs rhs =>
    associatedConstraintOrder lhs.kind ≤ associatedConstraintOrder rhs.kind

def conjoin : List NormalizedConstraint → Option NormalizedConstraint
  | [] => none
  | first :: rest => some (rest.foldl .conjunction first)

/-- Fails when a constraint has no normal form; no constraints have none. -/
def buildAssociatedConstraintNormalForm (constraints : List IntroducedConstraint) :
    Option (Option NormalizedConstraint) :=
  ((sortConstraints constraints).mapM IntroducedConstraint.normalForm).map conjoin

namespace Session

variable (session : Session)

def declarationAtLeastAsConstrained (lhs rhs : List IntroducedConstraint) : Bool :=
  match buildAssociatedConstraintNormalForm lhs, buildAssociatedConstraintNormalForm rhs with
  | some _, some none => true
  | some (some lhsForm), some (some rhsForm) =>
    !lhsForm.containsConceptDependent && session.normalizedConstraintSubsumes lhsForm rhsForm
  | _, _ => false

def declarationMoreConstrained (lhs rhs : List IntroducedConstraint) : Bool :=
  session.declarationAtLeastAsConstrained lhs rhs &&
    !session.declarationAtLeastAsConstrained rhs lhs

end Session

end Aburi.Collect
