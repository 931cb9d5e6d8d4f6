import Aburi.Collect.ConstraintSubsumption

/-!
# The order of constrained declarations

Subsumption of constraints without folds is entailment, with folds it is the
relation of the standard.  Declarations are ordered strictly by it, and the
order looks neither at the order of operands nor at repetitions.
-/

namespace Aburi.Collect

open Aburi.Cir List
open Aburi.Lib (Form)

namespace NormalizedConstraint

/-- Built from atoms, conjunctions and disjunctions. -/
def BuiltFromAtoms : NormalizedConstraint → Prop
  | .atomic _ => True
  | .conjunction lhs rhs | .disjunction lhs rhs => lhs.BuiltFromAtoms ∧ rhs.BuiltFromAtoms
  | .conceptDependent _ | .foldExpanded .. => False

/-- Truth under an assignment of truth values to atoms. -/
def holds (assignment : ConstraintAtom → Prop) : NormalizedConstraint → Prop
  | .atomic node | .conceptDependent node => assignment node
  | .conjunction lhs rhs => lhs.holds assignment ∧ rhs.holds assignment
  | .disjunction lhs rhs => lhs.holds assignment ∨ rhs.holds assignment
  | .foldExpanded _ _ _ constraint => constraint.holds assignment

/-- The disjunctive clauses of the standard: those of one side of a
disjunction, and one of each side of a conjunction together. -/
inductive DisjunctiveClause : NormalizedConstraint → List NormalizedConstraint → Prop where
  | atomic (node : ConstraintAtom) : DisjunctiveClause (.atomic node) [.atomic node]
  | foldExpanded (op : ConstraintFoldOperator)
      (parameters : List ConstraintFoldExpansionParameter)
      (bindings : List TemplateArgumentBinding) (constraint : NormalizedConstraint) :
      DisjunctiveClause (.foldExpanded op parameters bindings constraint)
        [.foldExpanded op parameters bindings constraint]
  | conjunction {lhs rhs : NormalizedConstraint} {clause clause' : List NormalizedConstraint} :
      DisjunctiveClause lhs clause → DisjunctiveClause rhs clause' →
        DisjunctiveClause (.conjunction lhs rhs) (clause ++ clause')
  | disjunctionLeft {lhs rhs : NormalizedConstraint} {clause : List NormalizedConstraint} :
      DisjunctiveClause lhs clause → DisjunctiveClause (.disjunction lhs rhs) clause
  | disjunctionRight {lhs rhs : NormalizedConstraint} {clause : List NormalizedConstraint} :
      DisjunctiveClause rhs clause → DisjunctiveClause (.disjunction lhs rhs) clause

inductive ConjunctiveClause : NormalizedConstraint → List NormalizedConstraint → Prop where
  | atomic (node : ConstraintAtom) : ConjunctiveClause (.atomic node) [.atomic node]
  | foldExpanded (op : ConstraintFoldOperator)
      (parameters : List ConstraintFoldExpansionParameter)
      (bindings : List TemplateArgumentBinding) (constraint : NormalizedConstraint) :
      ConjunctiveClause (.foldExpanded op parameters bindings constraint)
        [.foldExpanded op parameters bindings constraint]
  | disjunction {lhs rhs : NormalizedConstraint} {clause clause' : List NormalizedConstraint} :
      ConjunctiveClause lhs clause → ConjunctiveClause rhs clause' →
        ConjunctiveClause (.disjunction lhs rhs) (clause ++ clause')
  | conjunctionLeft {lhs rhs : NormalizedConstraint} {clause : List NormalizedConstraint} :
      ConjunctiveClause lhs clause → ConjunctiveClause (.conjunction lhs rhs) clause
  | conjunctionRight {lhs rhs : NormalizedConstraint} {clause : List NormalizedConstraint} :
      ConjunctiveClause rhs clause → ConjunctiveClause (.conjunction lhs rhs) clause

/-- The expansion parameters of the folds of a constraint, also inside of other folds. -/
def folds : NormalizedConstraint → List (List ConstraintFoldExpansionParameter)
  | .atomic _ | .conceptDependent _ => []
  | .conjunction lhs rhs | .disjunction lhs rhs => lhs.folds ++ rhs.folds
  | .foldExpanded _ parameters _ constraint => parameters :: constraint.folds

theorem folds_of_leaf {constraint leaf : NormalizedConstraint}
    (mem : leaf ∈ constraint.form.leaves) : leaf.folds ⊆ constraint.folds := by
  induction constraint with
  | atomic | conceptDependent | foldExpanded =>
    obtain rfl := mem_singleton.mp mem
    exact Subset.refl _
  | conjunction lhs rhs lhsFolds rhsFolds | disjunction lhs rhs lhsFolds rhsFolds =>
    rcases mem_append.mp mem with inLhs | inRhs
    · exact subset_append_of_subset_left _ (lhsFolds inLhs)
    · exact subset_append_of_subset_right _ (rhsFolds inRhs)

end NormalizedConstraint

open NormalizedConstraint (folds_of_leaf)

/-- The side condition of the standard: both patterns contain an equivalent unexpanded
pack.  A fold that records none is the constraint of a parameter pack. -/
def SharePack (parameters others : List ConstraintFoldExpansionParameter) : Prop :=
  (parameters = [] ∧ others = []) ∨
    ∃ parameter ∈ parameters, ∃ other ∈ others,
      Session.foldExpansionParametersAgree parameter other = true

/-- Folds of the two constraints that share a pack expand the same packs in the same order. -/
def SamePacks (lhs rhs : NormalizedConstraint) : Prop :=
  ∀ parameters ∈ lhs.folds, ∀ others ∈ rhs.folds, SharePack parameters others →
    Session.foldExpansionParametersCompatible parameters others = true

theorem SharePack.of_compatible {parameters others : List ConstraintFoldExpansionParameter}
    (compatible : Session.foldExpansionParametersCompatible parameters others = true) :
    SharePack parameters others := by
  cases parameters with
  | nil =>
    cases others with
    | nil => exact .inl ⟨rfl, rfl⟩
    | cons => cases compatible
  | cons parameter rest =>
    cases others with
    | nil => cases compatible
    | cons other others =>
      have agree := (Bool.and_eq_true_iff.mp compatible).1
      exact .inr ⟨parameter, mem_cons_self .., other, mem_cons_self .., agree⟩

open NormalizedConstraint (DisjunctiveClause ConjunctiveClause leaves_cases)

mutual

/-- The subsumption of the standard. -/
inductive StandardSubsumes (session : Session) :
    NormalizedConstraint → NormalizedConstraint → Prop where
  | clauses {lhs rhs : NormalizedConstraint} :
      (∀ clause, DisjunctiveClause lhs clause → ∀ other, ConjunctiveClause rhs other →
        StandardClauseSubsumes session clause other) →
      StandardSubsumes session lhs rhs

/-- A disjunctive clause and a conjunctive one. -/
inductive StandardClauseSubsumes (session : Session) :
    List NormalizedConstraint → List NormalizedConstraint → Prop where
  | leaf {clause other : List NormalizedConstraint} {a b : NormalizedConstraint} :
      a ∈ clause → b ∈ other → StandardLeafSubsumes session a b →
      StandardClauseSubsumes session clause other

inductive StandardLeafSubsumes (session : Session) :
    NormalizedConstraint → NormalizedConstraint → Prop where
  | atomic {lhs rhs : ConstraintAtom} : session.atomsIdentical lhs rhs = true →
      StandardLeafSubsumes session (.atomic lhs) (.atomic rhs)
  | foldExpanded {op : ConstraintFoldOperator}
      {parameters parameters' : List ConstraintFoldExpansionParameter}
      {bindings bindings' : List TemplateArgumentBinding} {lhs rhs : NormalizedConstraint} :
      SharePack parameters parameters' → StandardSubsumes session lhs rhs →
      StandardLeafSubsumes session (.foldExpanded op parameters bindings lhs)
        (.foldExpanded op parameters' bindings' rhs)

end

variable {constraint lhs rhs : NormalizedConstraint}

namespace Session

variable (session : Session)

theorem holds_iff_form {assignment : ConstraintAtom → Prop} (built : constraint.BuiltFromAtoms) :
    constraint.holds assignment ↔ constraint.form.holds fun leaf => leaf.holds assignment := by
  induction constraint with
  | atomic => exact Iff.rfl
  | conceptDependent | foldExpanded => exact built.elim
  | conjunction lhs rhs lhsIff rhsIff => exact and_congr (lhsIff built.1) (rhsIff built.2)
  | disjunction lhs rhs lhsIff rhsIff => exact or_congr (lhsIff built.1) (rhsIff built.2)

/-- An assignment that gives identical atoms the same value. -/
def RespectsIdentity (assignment : ConstraintAtom → Prop) : Prop :=
  ∀ a b, atomTyped a = true → atomTyped b = true → session.atomsIdentical a b = true →
    (assignment a ↔ assignment b)

theorem builtFromAtoms_noConcept (built : constraint.BuiltFromAtoms) :
    constraint.containsConceptDependent = false := by
  induction constraint with
  | atomic => rfl
  | conceptDependent | foldExpanded => exact built.elim
  | conjunction lhs rhs lhsNone rhsNone | disjunction lhs rhs lhsNone rhsNone =>
    rw [NormalizedConstraint.containsConceptDependent, lhsNone built.1, rhsNone built.2]
    rfl

theorem builtFromAtoms_leaves (built : constraint.BuiltFromAtoms) :
    ∀ leaf ∈ constraint.form.leaves, ∃ node, leaf = .atomic node := by
  induction constraint with
  | atomic node =>
    intro leaf mem
    exact ⟨node, mem_singleton.mp mem⟩
  | conceptDependent | foldExpanded => exact built.elim
  | conjunction lhs rhs lhsLeaves rhsLeaves | disjunction lhs rhs lhsLeaves rhsLeaves =>
    intro leaf mem
    rcases mem_append.mp mem with inLhs | inRhs
    · exact lhsLeaves built.1 leaf inLhs
    · exact rhsLeaves built.2 leaf inRhs

theorem subsumes_iff_entails (lhsBuilt : lhs.BuiltFromAtoms) (rhsBuilt : rhs.BuiltFromAtoms)
    (lhsTyped : lhs.typed = true) (rhsTyped : rhs.typed = true) :
    session.normalizedConstraintSubsumes lhs rhs = true ↔
      ∀ assignment, session.RespectsIdentity assignment →
        lhs.holds assignment → rhs.holds assignment := by
  have identical := session.atomsIdentical_decides
  have lhsSettled : Settled lhs := ⟨builtFromAtoms_noConcept lhsBuilt, lhsTyped⟩
  have rhsSettled : Settled rhs := ⟨builtFromAtoms_noConcept rhsBuilt, rhsTyped⟩
  -- the leaves are atoms that know the types of their values
  have atoms : ∀ {constraint : NormalizedConstraint}, constraint.BuiltFromAtoms →
      Settled constraint → ∀ leaf ∈ constraint.form.leaves,
        ∃ node, leaf = .atomic node ∧ atomTyped node = true := by
    intro constraint built settled leaf mem
    obtain ⟨node, rfl⟩ := builtFromAtoms_leaves built leaf mem
    exact ⟨node, rfl, (settled.leaf mem).typed⟩
  rw [session.subsumes_iff_covers lhsSettled.noConcept rhsSettled.noConcept]
  constructor
  · intro covers assignment respects isTrue
    rw [holds_iff_form lhsBuilt] at isTrue
    rw [holds_iff_form rhsBuilt]
    refine covers.holds ?_ isTrue
    intro a inLhs b inRhs isBelow
    obtain ⟨node, rfl, typed⟩ := atoms lhsBuilt lhsSettled a inLhs
    obtain ⟨other, rfl, typed'⟩ := atoms rhsBuilt rhsSettled b inRhs
    exact (respects node other typed typed' isBelow).mp
  · intro entails
    apply Form.covers_of_holds (session.leafSubsumes_refl lhsSettled)
    intro clause mem isTrue
    -- atoms are true when they are identical to one of the clause
    let assignment (node : ConstraintAtom) : Prop :=
      ∃ a ∈ clause, session.leafSubsumes a (.atomic node) = true
    have respects : session.RespectsIdentity assignment := by
      intro node other typed typed' same
      have inClause : ∀ a ∈ clause, ∃ first, a = .atomic first :=
        fun a isA => (atoms lhsBuilt lhsSettled a (Form.mem_leaves.1 clause mem a isA)).imp
          fun _ both => both.1
      constructor
      · rintro ⟨a, isA, isBelow⟩
        obtain ⟨first, rfl⟩ := inClause a isA
        exact ⟨_, isA, identical.trans typed isBelow same⟩
      · rintro ⟨a, isA, isBelow⟩
        obtain ⟨first, rfl⟩ := inClause a isA
        exact ⟨_, isA, identical.trans typed' isBelow (identical.symm same)⟩
    have sameValue : ∀ {constraint : NormalizedConstraint}, constraint.BuiltFromAtoms →
        Settled constraint →
        (constraint.form.holds (fun leaf => leaf.holds assignment) ↔
          constraint.form.holds fun leaf => ∃ a ∈ clause, session.leafSubsumes a leaf = true) := by
      intro constraint built settled
      apply Form.holds_congr
      intro leaf isLeaf
      obtain ⟨node, rfl, -⟩ := atoms built settled leaf isLeaf
      exact Iff.rfl
    rw [← sameValue lhsBuilt lhsSettled, ← holds_iff_form lhsBuilt] at isTrue
    rw [← sameValue rhsBuilt rhsSettled, ← holds_iff_form rhsBuilt]
    exact entails assignment respects isTrue

section

variable (settled : constraint.containsConceptDependent = false)
  {clause : List NormalizedConstraint}
include settled

theorem disjunctiveClause_iff :
    DisjunctiveClause constraint clause ↔ clause ∈ constraint.form.dnf := by
  induction constraint generalizing clause with
  | atomic | foldExpanded =>
    constructor
    · intro isClause
      cases isClause
      exact .head _
    · intro mem
      obtain rfl := mem_singleton.mp mem
      constructor
  | conceptDependent => cases settled
  | conjunction lhs rhs lhsIff rhsIff =>
    rw [NormalizedConstraint.containsConceptDependent, Bool.or_eq_false_iff] at settled
    constructor
    · intro isClause
      cases isClause with
      | conjunction inLhs inRhs =>
        exact Form.mem_combine.mpr
          ⟨_, (lhsIff settled.1).mp inLhs, _, (rhsIff settled.2).mp inRhs, rfl⟩
    · intro mem
      obtain ⟨first, isFirst, second, isSecond, rfl⟩ := Form.mem_combine.mp mem
      exact .conjunction ((lhsIff settled.1).mpr isFirst) ((rhsIff settled.2).mpr isSecond)
  | disjunction lhs rhs lhsIff rhsIff =>
    rw [NormalizedConstraint.containsConceptDependent, Bool.or_eq_false_iff] at settled
    constructor
    · intro isClause
      cases isClause with
      | disjunctionLeft inLhs => exact mem_append_left _ ((lhsIff settled.1).mp inLhs)
      | disjunctionRight inRhs => exact mem_append_right _ ((rhsIff settled.2).mp inRhs)
    · intro mem
      rcases mem_append.mp mem with inLhs | inRhs
      · exact .disjunctionLeft ((lhsIff settled.1).mpr inLhs)
      · exact .disjunctionRight ((rhsIff settled.2).mpr inRhs)

theorem conjunctiveClause_iff :
    ConjunctiveClause constraint clause ↔ clause ∈ constraint.form.cnf := by
  induction constraint generalizing clause with
  | atomic | foldExpanded =>
    constructor
    · intro isClause
      cases isClause
      exact .head _
    · intro mem
      obtain rfl := mem_singleton.mp mem
      constructor
  | conceptDependent => cases settled
  | disjunction lhs rhs lhsIff rhsIff =>
    rw [NormalizedConstraint.containsConceptDependent, Bool.or_eq_false_iff] at settled
    constructor
    · intro isClause
      cases isClause with
      | disjunction inLhs inRhs =>
        exact Form.mem_combine.mpr
          ⟨_, (lhsIff settled.1).mp inLhs, _, (rhsIff settled.2).mp inRhs, rfl⟩
    · intro mem
      obtain ⟨first, isFirst, second, isSecond, rfl⟩ := Form.mem_combine.mp mem
      exact .disjunction ((lhsIff settled.1).mpr isFirst) ((rhsIff settled.2).mpr isSecond)
  | conjunction lhs rhs lhsIff rhsIff =>
    rw [NormalizedConstraint.containsConceptDependent, Bool.or_eq_false_iff] at settled
    constructor
    · intro isClause
      cases isClause with
      | conjunctionLeft inLhs => exact mem_append_left _ ((lhsIff settled.1).mp inLhs)
      | conjunctionRight inRhs => exact mem_append_right _ ((rhsIff settled.2).mp inRhs)
    · intro mem
      rcases mem_append.mp mem with inLhs | inRhs
      · exact .conjunctionLeft ((lhsIff settled.1).mpr inLhs)
      · exact .conjunctionRight ((rhsIff settled.2).mpr inRhs)

end

section

variable (lhsSettled : lhs.containsConceptDependent = false)
include lhsSettled

/-- For a comparison of leaves that is the standard's on the leaves of the
first form, so is the comparison of the clauses. -/
theorem covers_iff_standard (rhsSettled : rhs.containsConceptDependent = false)
    (same : SamePacks lhs rhs)
    (leaves : ∀ a ∈ lhs.form.leaves, ∀ b, b.containsConceptDependent = false → SamePacks a b →
      (session.leafSubsumes a b = true ↔ StandardLeafSubsumes session a b)) :
    lhs.form.Covers (fun a b => session.leafSubsumes a b = true) rhs.form ↔
      StandardSubsumes session lhs rhs := by
  have sameLeaf : ∀ {clause other : List NormalizedConstraint}, clause ∈ lhs.form.dnf →
      other ∈ rhs.form.cnf → ∀ {a b}, a ∈ clause → b ∈ other →
      (session.leafSubsumes a b = true ↔ StandardLeafSubsumes session a b) := by
    intro clause other mem isOther a b isA isB
    have inRhs := Form.mem_leaves.2 other isOther b isB
    have inLhs := Form.mem_leaves.1 clause mem a isA
    exact leaves a inLhs b (leaves_cases rhsSettled inRhs).1 fun parameters isLhs others isRhs =>
      same parameters (folds_of_leaf inLhs isLhs) others (folds_of_leaf inRhs isRhs)
  constructor
  · intro covers
    constructor
    intro clause isClause other isOther
    rw [disjunctiveClause_iff lhsSettled] at isClause
    rw [conjunctiveClause_iff rhsSettled] at isOther
    obtain ⟨a, isA, b, isB, isBelow⟩ := covers clause isClause other isOther
    exact .leaf isA isB ((sameLeaf isClause isOther isA isB).mp isBelow)
  · intro standard clause mem other isOther
    cases standard with
    | clauses every =>
      obtain ⟨isA, isB, isBelow⟩ := every clause ((disjunctiveClause_iff lhsSettled).mpr mem)
        other ((conjunctiveClause_iff rhsSettled).mpr isOther)
      exact ⟨_, isA, _, isB, (sameLeaf mem isOther isA isB).mpr isBelow⟩

theorem leafSubsumes_iff_standard :
    ∀ a ∈ lhs.form.leaves, ∀ b, b.containsConceptDependent = false → SamePacks a b →
      (session.leafSubsumes a b = true ↔ StandardLeafSubsumes session a b) := by
  induction lhs with
  | atomic node =>
    intro a mem b _ _
    obtain rfl := mem_singleton.mp mem
    constructor
    · intro isBelow
      cases b with
      | atomic other => exact .atomic isBelow
      | _ => cases isBelow
    · intro standard
      cases standard with
      | atomic same => exact same
  | conceptDependent => cases lhsSettled
  | foldExpanded op parameters bindings constraint ih =>
    intro a mem b rhsSettled same
    obtain rfl := mem_singleton.mp mem
    have inside : constraint.containsConceptDependent = false := lhsSettled
    have patterns : ∀ {other : NormalizedConstraint}, other.containsConceptDependent = false →
        SamePacks constraint other →
        (session.normalizedConstraintSubsumes constraint other = true ↔
          StandardSubsumes session constraint other) := by
      intro other otherSettled same
      rw [session.subsumes_iff_covers inside otherSettled]
      exact session.covers_iff_standard inside otherSettled same (ih inside)
    have inner : ∀ {op parameters bindings other}, b = .foldExpanded op parameters bindings other →
        SamePacks constraint other := by
      rintro _ _ _ other rfl packs isLhs others isRhs
      exact same packs (mem_cons_of_mem _ isLhs) others (mem_cons_of_mem _ isRhs)
    constructor
    · intro isBelow
      cases b with
      | foldExpanded op' parameters' bindings' constraint' =>
        obtain ⟨rfl, compatible, subsumes⟩ := (session.leafSubsumes_fold ..).mp isBelow
        exact .foldExpanded (.of_compatible compatible)
          ((patterns (by exact rhsSettled) (inner rfl)).mp subsumes)
      | _ => cases isBelow
    · intro standard
      cases standard with
      | foldExpanded share subsumes =>
        have compatible := same _ (mem_cons_self ..) _ (mem_cons_self ..) share
        exact (session.leafSubsumes_fold ..).mpr
          ⟨rfl, compatible, (patterns (by exact rhsSettled) (inner rfl)).mpr subsumes⟩
  | conjunction lhs rhs lhsIff rhsIff | disjunction lhs rhs lhsIff rhsIff =>
    rw [NormalizedConstraint.containsConceptDependent, Bool.or_eq_false_iff] at lhsSettled
    intro a mem
    rcases mem_append.mp mem with inLhs | inRhs
    · exact lhsIff lhsSettled.1 a inLhs
    · exact rhsIff lhsSettled.2 a inRhs

theorem subsumes_iff_standard (rhsSettled : rhs.containsConceptDependent = false)
    (same : SamePacks lhs rhs) :
    session.normalizedConstraintSubsumes lhs rhs = true ↔ StandardSubsumes session lhs rhs := by
  rw [session.subsumes_iff_covers lhsSettled rhsSettled]
  exact session.covers_iff_standard lhsSettled rhsSettled same
    (session.leafSubsumes_iff_standard lhsSettled)

end

end Session

/-- Forms that differ in the order and the grouping of operands and in
repeated ones. -/
inductive Rearranged : NormalizedConstraint → NormalizedConstraint → Prop where
  | refl (constraint : NormalizedConstraint) : Rearranged constraint constraint
  | symm {lhs rhs : NormalizedConstraint} : Rearranged lhs rhs → Rearranged rhs lhs
  | trans {lhs middle rhs : NormalizedConstraint} :
      Rearranged lhs middle → Rearranged middle rhs → Rearranged lhs rhs
  | conjunctionSwap (lhs rhs : NormalizedConstraint) :
      Rearranged (.conjunction lhs rhs) (.conjunction rhs lhs)
  | disjunctionSwap (lhs rhs : NormalizedConstraint) :
      Rearranged (.disjunction lhs rhs) (.disjunction rhs lhs)
  | conjunctionAssoc (first second third : NormalizedConstraint) :
      Rearranged (.conjunction (.conjunction first second) third)
        (.conjunction first (.conjunction second third))
  | disjunctionAssoc (first second third : NormalizedConstraint) :
      Rearranged (.disjunction (.disjunction first second) third)
        (.disjunction first (.disjunction second third))
  | conjunctionTwice (constraint : NormalizedConstraint) :
      Rearranged (.conjunction constraint constraint) constraint
  | disjunctionTwice (constraint : NormalizedConstraint) :
      Rearranged (.disjunction constraint constraint) constraint
  | conjunction {lhs lhs' rhs rhs' : NormalizedConstraint} : Rearranged lhs lhs' →
      Rearranged rhs rhs' → Rearranged (.conjunction lhs rhs) (.conjunction lhs' rhs')
  | disjunction {lhs lhs' rhs rhs' : NormalizedConstraint} : Rearranged lhs lhs' →
      Rearranged rhs rhs' → Rearranged (.disjunction lhs rhs) (.disjunction lhs' rhs')
  | foldExpanded (op : ConstraintFoldOperator)
      (parameters : List ConstraintFoldExpansionParameter)
      (bindings : List TemplateArgumentBinding) {lhs rhs : NormalizedConstraint} :
      Rearranged lhs rhs →
        Rearranged (.foldExpanded op parameters bindings lhs)
          (.foldExpanded op parameters bindings rhs)

namespace Session

variable (session : Session)

theorem settled_binary :
    (Settled (.conjunction lhs rhs) ↔ Settled lhs ∧ Settled rhs) ∧
      (Settled (.disjunction lhs rhs) ↔ Settled lhs ∧ Settled rhs) := by
  have both : ∀ {constraint : NormalizedConstraint},
      constraint.containsConceptDependent =
        (lhs.containsConceptDependent || rhs.containsConceptDependent) →
      constraint.typed = (lhs.typed && rhs.typed) →
      (Settled constraint ↔ Settled lhs ∧ Settled rhs) := by
    intro constraint concepts types
    constructor
    · rintro ⟨noConcept, typed⟩
      rw [concepts, Bool.or_eq_false_iff] at noConcept
      rw [types, Bool.and_eq_true] at typed
      exact ⟨⟨noConcept.1, typed.1⟩, ⟨noConcept.2, typed.2⟩⟩
    · rintro ⟨⟨lhsConcept, lhsTyped⟩, ⟨rhsConcept, rhsTyped⟩⟩
      exact ⟨by rw [concepts, lhsConcept, rhsConcept]; rfl, by rw [types, lhsTyped, rhsTyped]; rfl⟩
  exact ⟨both rfl rfl, both rfl rfl⟩

theorem settled_fold {op : ConstraintFoldOperator}
    {parameters : List ConstraintFoldExpansionParameter} {bindings : List TemplateArgumentBinding} :
    Settled (.foldExpanded op parameters bindings constraint) ↔ Settled constraint :=
  ⟨fun settled => ⟨settled.noConcept, settled.typed⟩,
    fun settled => ⟨settled.noConcept, settled.typed⟩⟩

theorem rearranged_settled (rearranged : Rearranged lhs rhs) :
    Settled lhs ↔ Settled rhs := by
  induction rearranged with
  | refl => exact Iff.rfl
  | symm _ ih => exact ih.symm
  | trans _ _ first second => exact first.trans second
  | conjunctionSwap | disjunctionSwap => simp only [settled_binary, and_comm]
  | conjunctionAssoc | disjunctionAssoc => simp only [settled_binary, and_assoc]
  | conjunctionTwice | disjunctionTwice => simp only [settled_binary, and_self]
  | conjunction _ _ lhsIff rhsIff | disjunction _ _ lhsIff rhsIff =>
    simp only [settled_binary, lhsIff, rhsIff]
  | foldExpanded _ _ _ _ ih => simpa only [settled_fold] using ih

theorem rearranged_holds (rearranged : Rearranged lhs rhs) :
    Settled lhs → ∀ value, session.Respects value →
      (lhs.form.holds value ↔ rhs.form.holds value) := by
  induction rearranged with
  | refl => exact fun _ _ _ => Iff.rfl
  | symm step ih =>
    exact fun settled value respects =>
      (ih ((rearranged_settled step).mpr settled) value respects).symm
  | trans first _ firstIff secondIff =>
    exact fun settled value respects => (firstIff settled value respects).trans
      (secondIff ((rearranged_settled first).mp settled) value respects)
  | conjunctionSwap => exact fun _ _ _ => and_comm
  | disjunctionSwap => exact fun _ _ _ => or_comm
  | conjunctionAssoc => exact fun _ _ _ => and_assoc
  | disjunctionAssoc => exact fun _ _ _ => or_assoc
  | conjunctionTwice => exact fun _ _ _ => and_self_iff
  | disjunctionTwice => exact fun _ _ _ => or_self_iff
  | conjunction _ _ lhsIff rhsIff =>
    intro settled value respects
    obtain ⟨lhsSettled, rhsSettled⟩ := settled_binary.1.mp settled
    exact and_congr (lhsIff lhsSettled value respects) (rhsIff rhsSettled value respects)
  | disjunction _ _ lhsIff rhsIff =>
    intro settled value respects
    obtain ⟨lhsSettled, rhsSettled⟩ := settled_binary.2.mp settled
    exact or_congr (lhsIff lhsSettled value respects) (rhsIff rhsSettled value respects)
  | @foldExpanded op parameters bindings lhs rhs step ih =>
    intro settled value respects
    have lhsSettled := settled_fold.1 settled
    have rhsSettled := (rearranged_settled step).mp lhsSettled
    -- the patterns subsume each other, so the folds do
    have forth := (session.subsumes_iff_holds lhsSettled rhsSettled).mpr
      fun value respects => (ih lhsSettled value respects).mp
    have back := (session.subsumes_iff_holds rhsSettled lhsSettled).mpr
      fun value respects => (ih lhsSettled value respects).mpr
    have compatible := foldExpansionParameters_decides.refl parameters
    have other : Settled (.foldExpanded op parameters bindings rhs) := settled_fold.2 rhsSettled
    constructor
    · exact respects _ _ settled rfl other rfl
        ((session.leafSubsumes_fold ..).mpr ⟨rfl, compatible, forth⟩)
    · exact respects _ _ other rfl settled rfl
        ((session.leafSubsumes_fold ..).mpr ⟨rfl, compatible, back⟩)

end Session

/-- Constraints that were normalized, without concept-dependent ones, whose
atoms know the types of their values. -/
def Comparable (constraints : List IntroducedConstraint) : Prop :=
  ∀ constraint ∈ constraints, ∃ form, constraint.normalForm = some form ∧ Session.Settled form

/-- Lists of constraints in another order, with rearranged normal forms. -/
def SameUpToOrder (constraints others : List IntroducedConstraint) : Prop :=
  ∃ middle, constraints.Perm middle ∧
    List.Forall₂ (fun constraint other => ∃ form form', constraint.normalForm = some form ∧
      other.normalForm = some form' ∧ Rearranged form form') middle others

namespace Session

variable (session : Session)

/-- All constraints of a list hold. -/
def AllHold (value : NormalizedConstraint → Prop) (constraints : List IntroducedConstraint) :
    Prop :=
  ∀ constraint ∈ constraints, ∀ form, constraint.normalForm = some form → form.form.holds value

theorem foldl_conjunction_holds {value : NormalizedConstraint → Prop}
    (forms : List NormalizedConstraint) :
    ∀ first : NormalizedConstraint, (forms.foldl .conjunction first).form.holds value ↔
      first.form.holds value ∧ ∀ form ∈ forms, form.form.holds value := by
  induction forms with
  | nil => simp
  | cons form rest ih =>
    intro first
    rw [foldl_cons, ih, forall_mem_cons, ← and_assoc]
    exact Iff.rfl

theorem foldl_conjunction_settled (forms : List NormalizedConstraint) :
    ∀ first : NormalizedConstraint, Settled (forms.foldl .conjunction first) ↔
      Settled first ∧ ∀ form ∈ forms, Settled form := by
  induction forms with
  | nil => simp
  | cons form rest ih =>
    intro first
    rw [foldl_cons, ih, forall_mem_cons, ← and_assoc, settled_binary.1]

variable {constraints : List IntroducedConstraint}

/-- The normal form of a list is settled and holds when its constraints do. -/
theorem build_eq (comparable : Comparable constraints) :
    (constraints = [] ∧ buildAssociatedConstraintNormalForm constraints = some none) ∨
      ∃ form, buildAssociatedConstraintNormalForm constraints = some (some form) ∧
        constraints ≠ [] ∧ Settled form ∧
        ∀ value, form.form.holds value ↔ AllHold value constraints := by
  have sorted : (sortConstraints constraints).Perm constraints := perm_insertionSort _ _
  -- every constraint has its normal form
  have forms : ∀ constraints : List IntroducedConstraint, Comparable constraints →
      ∃ forms, constraints.mapM IntroducedConstraint.normalForm = some forms ∧
        forms.length = constraints.length ∧ (∀ form ∈ forms, Settled form) ∧
        ∀ value, (∀ form ∈ forms, form.form.holds value) ↔ AllHold value constraints := by
    intro constraints comparable
    induction constraints with
    | nil => exact ⟨[], rfl, rfl, by simp, by simp [AllHold]⟩
    | cons constraint rest ih =>
      obtain ⟨form, isForm, settled⟩ := comparable constraint (.head _)
      obtain ⟨forms, isMap, sameLength, settledRest, holdsRest⟩ :=
        ih fun other mem => comparable other (.tail _ mem)
      refine ⟨form :: forms, ?_, by simp [sameLength],
        forall_mem_cons.mpr ⟨settled, settledRest⟩, ?_⟩
      · rw [mapM_cons, isForm, isMap]
        rfl
      · intro value
        rw [forall_mem_cons, holdsRest, AllHold, AllHold, forall_mem_cons]
        simp [isForm]
  obtain ⟨forms, isMap, sameLength, settled, holds⟩ :=
    forms (sortConstraints constraints) fun constraint mem => comparable constraint (sorted.mem_iff.mp mem)
  have allHold : ∀ value, AllHold value (sortConstraints constraints) ↔ AllHold value constraints :=
    fun value => forall_congr' fun constraint => by rw [sorted.mem_iff]
  rw [sorted.length_eq] at sameLength
  cases forms with
  | nil =>
    left
    exact ⟨length_eq_zero_iff.mp sameLength.symm,
      by rw [buildAssociatedConstraintNormalForm, isMap]; rfl⟩
  | cons first rest =>
    right
    refine ⟨rest.foldl .conjunction first, ?_, ?_, ?_, ?_⟩
    · rw [buildAssociatedConstraintNormalForm, isMap]
      rfl
    · rintro rfl
      cases sameLength
    · rw [foldl_conjunction_settled]
      exact forall_mem_cons.mp settled
    · intro value
      rw [foldl_conjunction_holds, ← allHold, ← holds, forall_mem_cons]

theorem atLeastAsConstrained_iff {lhs rhs : List IntroducedConstraint}
    (lhsComparable : Comparable lhs) (rhsComparable : Comparable rhs) :
    session.declarationAtLeastAsConstrained lhs rhs = true ↔
      rhs = [] ∨ lhs ≠ [] ∧
        ∀ value, session.Respects value → AllHold value lhs → AllHold value rhs := by
  rw [declarationAtLeastAsConstrained]
  rcases build_eq rhsComparable with ⟨isNil, noForm⟩ | ⟨rhsForm, isRhs, notNil, rhsSettled, rhsHolds⟩
  · rw [noForm]
    rcases build_eq lhsComparable with ⟨-, isLhs⟩ | ⟨lhsForm, isLhs, -⟩ <;> simp [isLhs, isNil]
  · rw [isRhs]
    rcases build_eq lhsComparable with ⟨isNil, noForm⟩ | ⟨lhsForm, isLhs, notNil', lhsSettled, lhsHolds⟩
    · rw [noForm]
      simp [isNil, notNil]
    · simp only [isLhs, lhsSettled.noConcept, Bool.not_false, Bool.true_and, notNil, notNil',
        false_or, ne_eq, not_false_eq_true, true_and]
      rw [session.subsumes_iff_holds lhsSettled rhsSettled]
      simp only [lhsHolds, rhsHolds]

theorem atLeastAsConstrained_refl (comparable : Comparable constraints) :
    session.declarationAtLeastAsConstrained constraints constraints = true := by
  rw [session.atLeastAsConstrained_iff comparable comparable]
  by_cases isNil : constraints = []
  · exact .inl isNil
  · exact .inr ⟨isNil, fun _ _ holds => holds⟩

theorem atLeastAsConstrained_trans {first second third : List IntroducedConstraint}
    (firstComparable : Comparable first) (secondComparable : Comparable second)
    (thirdComparable : Comparable third)
    (left : session.declarationAtLeastAsConstrained first second = true)
    (right : session.declarationAtLeastAsConstrained second third = true) :
    session.declarationAtLeastAsConstrained first third = true := by
  rw [session.atLeastAsConstrained_iff firstComparable secondComparable] at left
  rw [session.atLeastAsConstrained_iff secondComparable thirdComparable] at right
  rw [session.atLeastAsConstrained_iff firstComparable thirdComparable]
  rcases right with isNil | ⟨notNil, entails⟩
  · exact .inl isNil
  · obtain ⟨notNil', entails'⟩ := left.resolve_left notNil
    exact .inr ⟨notNil', fun value respects holds =>
      entails value respects (entails' value respects holds)⟩

theorem sameUpToOrder_holds {others : List IntroducedConstraint}
    (comparable : Comparable constraints) (same : SameUpToOrder constraints others) :
    Comparable others ∧ (constraints = [] ↔ others = []) ∧
      ∀ value, session.Respects value → (AllHold value constraints ↔ AllHold value others) := by
  obtain ⟨middle, perm, forms⟩ := same
  have middleHolds : ∀ value, AllHold value constraints ↔ AllHold value middle :=
    fun value => forall_congr' fun constraint => by rw [perm.mem_iff]
  have middleComparable : Comparable middle :=
    fun constraint mem => comparable constraint (perm.mem_iff.mpr mem)
  have sameNil : constraints = [] ↔ middle = [] := by
    rw [← length_eq_zero_iff, perm.length_eq, length_eq_zero_iff]
  simp only [sameNil, middleHolds]
  clear sameNil middleHolds perm comparable
  induction forms with
  | nil => exact ⟨middleComparable, Iff.rfl, fun _ _ => Iff.rfl⟩
  | @cons constraint other rest rest' step _ ih =>
    obtain ⟨form, form', isForm, isForm', rearranged⟩ := step
    obtain ⟨known, isKnown, settled⟩ := middleComparable constraint (.head _)
    obtain rfl : form = known := Option.some.inj (isForm.symm.trans isKnown)
    obtain ⟨restComparable, -, restHolds⟩ := ih fun item mem => middleComparable item (.tail _ mem)
    refine ⟨?_, by simp, ?_⟩
    · intro item mem
      rcases mem_cons.mp mem with rfl | inRest
      · exact ⟨form', isForm', (rearranged_settled rearranged).mp settled⟩
      · exact restComparable item inRest
    · intro value respects
      have step := session.rearranged_holds rearranged settled value respects
      have rest := restHolds value respects
      simp only [AllHold, forall_mem_cons, isForm, isForm', Option.some.injEq, forall_eq'] at rest ⊢
      rw [step, rest]

theorem atLeastAsConstrained_rearranged {lhs lhs' rhs rhs' : List IntroducedConstraint}
    (lhsComparable : Comparable lhs) (rhsComparable : Comparable rhs)
    (lhsSame : SameUpToOrder lhs lhs') (rhsSame : SameUpToOrder rhs rhs') :
    session.declarationAtLeastAsConstrained lhs rhs =
      session.declarationAtLeastAsConstrained lhs' rhs' := by
  obtain ⟨lhsComparable', lhsNil, lhsHolds⟩ := session.sameUpToOrder_holds lhsComparable lhsSame
  obtain ⟨rhsComparable', rhsNil, rhsHolds⟩ := session.sameUpToOrder_holds rhsComparable rhsSame
  rw [Bool.eq_iff_iff, session.atLeastAsConstrained_iff lhsComparable rhsComparable,
    session.atLeastAsConstrained_iff lhsComparable' rhsComparable', rhsNil, ne_eq, lhsNil]
  apply or_congr_right
  apply and_congr_right
  intro _
  refine forall₂_congr fun value respects => ?_
  rw [lhsHolds value respects, rhsHolds value respects]

end Session

/-- A file with the types `int` and `long`. -/
def intAndLong : Session where
  file :=
    { file :=
        { types := [{}, { kind := .builtin, payloadIndex := 1, canonical := ⟨1, 1⟩ },
            { kind := .builtin, payloadIndex := 2, canonical := ⟨2, 1⟩ }]
          typeGenerations := [0, 1, 1]
          typePayloads := [.invalid, .builtin { kind := .int }, .builtin { kind := .long }] } }
  levels := 1

/-- The atom that requires something of the value 3 of a type, which may be
missing. -/
def requiresThree (valueType : TypeId) : NormalizedConstraint :=
  .atomic { atom :=
    { appearanceOwner := ⟨1, 1⟩
      expressionEnd := 1
      parameterMapping :=
        [{ parameterKind := .nonType
           parameterIndex := 0
           argument := .plain
            { kind := .value
              valueType := { type := valueType }
              valueKind := .integer
              integerValue := { lowBits := 3 } } }] } }

/-- A fold of a constraint over type parameter packs. -/
def foldOver (packs : List UInt32) (constraint : NormalizedConstraint) : NormalizedConstraint :=
  .foldExpanded .logicalAnd (packs.map fun index => { parameterIndex := index }) [] constraint

def requiresBoth : NormalizedConstraint :=
  .conjunction (requiresThree ⟨1, 1⟩) (requiresThree ⟨2, 1⟩)

theorem samePacks_foldOver (pack : UInt32) {lhs rhs : NormalizedConstraint} (lhsPlain : lhs.folds = [])
    (rhsPlain : rhs.folds = []) : SamePacks (foldOver [pack] lhs) (foldOver [pack] rhs) := by
  intro parameters isLhs others isRhs _
  rw [foldOver, NormalizedConstraint.folds, lhsPlain, mem_singleton] at isLhs
  rw [foldOver, NormalizedConstraint.folds, rhsPlain, mem_singleton] at isRhs
  rw [isLhs, isRhs]
  exact Session.foldExpansionParameters_decides.refl _

end Aburi.Collect
