import Aburi.Collect.ConstraintIdentity
import Aburi.Lib.MonotoneForms

/-!
# Subsumption as entailment

The clauses of two normal forms are compared leaf by leaf.  Leaves are compared
by a relation that is reflexive and transitive, so that comparing the clauses
decides whether the one form implies the other.
-/

namespace Aburi.Collect

open Aburi.Cir Nat
open Aburi.Lib (Form)

variable {constraint : NormalizedConstraint}

namespace NormalizedConstraint

/-- Atoms and folds are the leaves. -/
def form : NormalizedConstraint → Form NormalizedConstraint
  | .conjunction lhs rhs => .conj lhs.form rhs.form
  | .disjunction lhs rhs => .disj lhs.form rhs.form
  | node => .leaf node

/-- Atoms know the types of their values. -/
def typed : NormalizedConstraint → Bool
  | .atomic node | .conceptDependent node => Session.atomTyped node
  | .conjunction lhs rhs | .disjunction lhs rhs => lhs.typed && rhs.typed
  | .foldExpanded _ _ _ constraint => constraint.typed

attribute [local grind =] containsConceptDependent dnf foldDepth typed

theorem clauses_eq (settled : constraint.containsConceptDependent = false) :
    constraint.dnf = some constraint.form.dnf ∧ constraint.cnf = some constraint.form.cnf := by
  induction constraint with
  | atomic | foldExpanded => exact ⟨rfl, rfl⟩
  | conceptDependent => cases settled
  | conjunction lhs rhs lhsEq rhsEq | disjunction lhs rhs lhsEq rhsEq =>
    rw [containsConceptDependent, Bool.or_eq_false_iff] at settled
    obtain ⟨lhsDnf, lhsCnf⟩ := lhsEq settled.1
    obtain ⟨rhsDnf, rhsCnf⟩ := rhsEq settled.2
    rw [dnf, cnf, lhsDnf, lhsCnf, rhsDnf, rhsCnf]
    exact ⟨rfl, rfl⟩

theorem leaves_cases {leaf : NormalizedConstraint}
    (settled : constraint.containsConceptDependent = false) (mem : leaf ∈ constraint.form.leaves) :
    leaf.containsConceptDependent = false ∧ leaf.foldDepth ≤ constraint.foldDepth ∧
      leaf.form = .leaf leaf ∧ (constraint.typed = true → leaf.typed = true) := by
  induction constraint with
  | atomic | foldExpanded =>
    obtain rfl := List.mem_singleton.mp mem
    exact ⟨settled, le_rfl, rfl, id⟩
  | conceptDependent => cases settled
  | conjunction lhs rhs lhsCases rhsCases | disjunction lhs rhs lhsCases rhsCases =>
    rw [containsConceptDependent, Bool.or_eq_false_iff] at settled
    rw [foldDepth, typed, Bool.and_eq_true]
    rcases List.mem_append.mp mem with inLhs | inRhs
    · obtain ⟨noConcept, depth, isLeaf, knows⟩ := lhsCases settled.1 inLhs
      exact ⟨noConcept, depth.trans (le_max_left _ _), isLeaf, fun both => knows both.1⟩
    · obtain ⟨noConcept, depth, isLeaf, knows⟩ := rhsCases settled.2 inRhs
      exact ⟨noConcept, depth.trans (le_max_right _ _), isLeaf, fun both => knows both.2⟩

end NormalizedConstraint

open NormalizedConstraint (clauses_eq leaves_cases)

namespace Session

variable (session : Session)

variable {below : NormalizedConstraint → NormalizedConstraint → Bool}
  {lhs rhs : NormalizedConstraint}

theorem clausesSubsume_iff (lhsSettled : lhs.containsConceptDependent = false)
    (rhsSettled : rhs.containsConceptDependent = false) :
    clausesSubsume below lhs rhs = true ↔
      lhs.form.Covers (fun a b => below a b = true) rhs.form := by
  rw [clausesSubsume, (clauses_eq lhsSettled).1, (clauses_eq rhsSettled).2]
  simp [Form.Covers]

theorem clausesSubsume_congr {below' : NormalizedConstraint → NormalizedConstraint → Bool}
    (same : ∀ clauses, lhs.dnf = some clauses → ∀ clause ∈ clauses, ∀ leaf ∈ clause, ∀ other,
      below leaf other = below' leaf other) (rhs : NormalizedConstraint) :
    clausesSubsume below lhs rhs = clausesSubsume below' lhs rhs := by
  rw [clausesSubsume, clausesSubsume]
  cases isDnf : lhs.dnf with
  | none => rfl
  | some lhsDnf =>
    cases rhs.cnf with
    | none => rfl
    | some rhsCnf =>
      rw [Bool.eq_iff_iff]
      simp only [List.all_eq_true, List.any_eq_true]
      refine forall₂_congr fun clause mem => forall₂_congr fun other isOther => ?_
      refine exists_congr fun leaf => and_congr_right fun isLeaf => ?_
      refine exists_congr fun otherLeaf => and_congr_right fun _ => ?_
      rw [same lhsDnf isDnf clause mem leaf isLeaf]

/-- The leaves of clauses are no deeper than the form, also where a clause is
missing. -/
theorem dnf_depth :
    ∀ clauses, constraint.dnf = some clauses → ∀ clause ∈ clauses, ∀ leaf ∈ clause,
      leaf.foldDepth ≤ constraint.foldDepth := by
  intro clauses isDnf clause mem leaf isLeaf
  induction constraint generalizing clauses clause with
  | atomic | foldExpanded =>
    cases isDnf
    obtain rfl := List.mem_singleton.mp mem
    obtain rfl := List.mem_singleton.mp isLeaf
    exact le_rfl
  | conceptDependent => cases isDnf
  | conjunction lhs rhs lhsDepth rhsDepth =>
    rw [NormalizedConstraint.dnf] at isDnf
    split at isDnf
    case h_2 => cases isDnf
    case h_1 lhsClauses rhsClauses isLhs isRhs =>
      cases isDnf
      obtain ⟨first, isFirst, inRight⟩ := List.mem_flatMap.mp mem
      obtain ⟨second, isSecond, rfl⟩ := List.mem_map.mp inRight
      rcases List.mem_append.mp isLeaf with inFirst | inSecond
      · exact (lhsDepth _ isLhs first isFirst inFirst).trans (le_max_left _ _)
      · exact (rhsDepth _ isRhs second isSecond inSecond).trans (le_max_right _ _)
  | disjunction lhs rhs lhsDepth rhsDepth =>
    rw [NormalizedConstraint.dnf] at isDnf
    split at isDnf
    case h_2 => cases isDnf
    case h_1 lhsClauses rhsClauses isLhs isRhs =>
      cases isDnf
      rcases List.mem_append.mp mem with inLhs | inRhs
      · exact (lhsDepth _ isLhs clause inLhs isLeaf).trans (le_max_left _ _)
      · exact (rhsDepth _ isRhs clause inRhs isLeaf).trans (le_max_right _ _)

def leafSubsumes (lhs rhs : NormalizedConstraint) : Bool :=
  session.leafSubsumesWithin lhs.foldDepth lhs rhs

theorem leafSubsumesWithin_eq (depth : ℕ) :
    ∀ other lhs rhs, lhs.foldDepth ≤ depth → lhs.foldDepth ≤ other →
      session.leafSubsumesWithin depth lhs rhs = session.leafSubsumesWithin other lhs rhs := by
  induction depth with
  | zero =>
    intro other lhs rhs none _
    cases lhs with
    | foldExpanded => exact absurd none (not_succ_le_zero _)
    | _ => cases other <;> cases rhs <;> rfl
  | succ depth ih =>
    intro other lhs rhs inDepth inOther
    cases lhs with
    | foldExpanded op parameters bindings constraint =>
      cases other with
      | zero => exact absurd inOther (not_succ_le_zero _)
      | succ other =>
        cases rhs with
        | foldExpanded op' parameters' bindings' constraint' =>
          rw [leafSubsumesWithin, leafSubsumesWithin]
          congr 1
          apply clausesSubsume_congr
          intro clauses isDnf clause mem leaf isLeaf rhsLeaf
          have bounded := dnf_depth clauses isDnf clause mem leaf isLeaf
          exact ih other leaf rhsLeaf (bounded.trans (le_of_succ_le_succ inDepth))
            (bounded.trans (le_of_succ_le_succ inOther))
        | _ => rfl
    | _ => cases other <;> cases rhs <;> rfl

theorem subsumes_eq (lhs rhs : NormalizedConstraint) :
    session.normalizedConstraintSubsumes lhs rhs = clausesSubsume session.leafSubsumes lhs rhs := by
  apply clausesSubsume_congr
  intro clauses isDnf clause mem leaf isLeaf other
  exact session.leafSubsumesWithin_eq _ _ _ _ (dnf_depth clauses isDnf clause mem leaf isLeaf) le_rfl

theorem subsumes_iff_covers (lhsSettled : lhs.containsConceptDependent = false)
    (rhsSettled : rhs.containsConceptDependent = false) :
    session.normalizedConstraintSubsumes lhs rhs = true ↔
      lhs.form.Covers (fun a b => session.leafSubsumes a b = true) rhs.form := by
  rw [subsumes_eq]
  exact clausesSubsume_iff lhsSettled rhsSettled

theorem leafSubsumes_fold (op op' : ConstraintFoldOperator)
    (parameters parameters' : List ConstraintFoldExpansionParameter)
    (bindings bindings' : List TemplateArgumentBinding) (lhs rhs : NormalizedConstraint) :
    session.leafSubsumes (.foldExpanded op parameters bindings lhs)
        (.foldExpanded op' parameters' bindings' rhs) = true ↔
      op = op' ∧ foldExpansionParametersCompatible parameters parameters' = true ∧
        session.normalizedConstraintSubsumes lhs rhs = true := by
  rw [leafSubsumes, NormalizedConstraint.foldDepth, leafSubsumesWithin, Bool.and_eq_true,
    Bool.and_eq_true, beq_iff_eq, and_assoc, normalizedConstraintSubsumes]

theorem foldExpansionParameters_decides : Decides foldExpansionParametersCompatible := by
  apply Decides.lists
  constructor
  · intro a
    grind [foldExpansionParametersAgree]
  · intro a b agree
    grind [foldExpansionParametersAgree]
  · intro a b c left right
    grind [foldExpansionParametersAgree]

/-- Leaves of forms that are fully known. -/
structure Settled (constraint : NormalizedConstraint) : Prop where
  noConcept : constraint.containsConceptDependent = false
  typed : constraint.typed = true

theorem Settled.leaf {leaf : NormalizedConstraint} (settled : Settled constraint)
    (mem : leaf ∈ constraint.form.leaves) : Settled leaf := by
  obtain ⟨noConcept, -, -, knows⟩ := leaves_cases settled.noConcept mem
  exact ⟨noConcept, knows settled.typed⟩

theorem leafSubsumes_refl (settled : Settled constraint) :
    ∀ leaf ∈ constraint.form.leaves, session.leafSubsumes leaf leaf = true := by
  induction constraint with
  | atomic node =>
    intro leaf mem
    obtain rfl := List.mem_singleton.mp mem
    exact session.atomsIdentical_decides.refl node settled.typed
  | conceptDependent => cases settled.noConcept
  | foldExpanded op parameters bindings constraint ih =>
    intro leaf mem
    obtain rfl := List.mem_singleton.mp mem
    have inside : Settled constraint := ⟨settled.noConcept, settled.typed⟩
    refine (session.leafSubsumes_fold ..).mpr ⟨rfl, foldExpansionParameters_decides.refl _, ?_⟩
    exact (session.subsumes_iff_covers inside.noConcept inside.noConcept).mpr (.refl (ih inside))
  | conjunction lhs rhs lhsRefl rhsRefl | disjunction lhs rhs lhsRefl rhsRefl =>
    obtain ⟨noConcept, typed⟩ := settled
    rw [NormalizedConstraint.containsConceptDependent, Bool.or_eq_false_iff] at noConcept
    rw [NormalizedConstraint.typed, Bool.and_eq_true] at typed
    intro leaf mem
    rcases List.mem_append.mp mem with inLhs | inRhs
    · exact lhsRefl ⟨noConcept.1, typed.1⟩ leaf inLhs
    · exact rhsRefl ⟨noConcept.2, typed.2⟩ leaf inRhs

theorem leafSubsumes_trans (settled : Settled constraint) :
    ∀ a ∈ constraint.form.leaves, ∀ b c, Settled b → Settled c →
      session.leafSubsumes a b = true → session.leafSubsumes b c = true →
        session.leafSubsumes a c = true := by
  induction constraint with
  | atomic node =>
    intro a mem b c settledB _ first second
    obtain rfl := List.mem_singleton.mp mem
    cases b with
    | atomic other =>
      cases c with
      | atomic last =>
        exact session.atomsIdentical_decides.trans settledB.typed first second
      | _ => cases second
    | _ => cases first
  | conceptDependent => cases settled.noConcept
  | foldExpanded op parameters bindings constraint ih =>
    intro a mem b c settledB settledC first second
    obtain rfl := List.mem_singleton.mp mem
    cases b with
    | foldExpanded op' parameters' bindings' middle =>
      cases c with
      | foldExpanded op'' parameters'' bindings'' last =>
        obtain ⟨rfl, compatible, subsumes⟩ := (session.leafSubsumes_fold ..).mp first
        obtain ⟨rfl, compatible', subsumes'⟩ := (session.leafSubsumes_fold ..).mp second
        have inside : Settled constraint := ⟨settled.noConcept, settled.typed⟩
        have insideB : Settled middle := ⟨settledB.noConcept, settledB.typed⟩
        have insideC : Settled last := ⟨settledC.noConcept, settledC.typed⟩
        rw [session.subsumes_iff_covers inside.noConcept insideB.noConcept] at subsumes
        rw [session.subsumes_iff_covers insideB.noConcept insideC.noConcept] at subsumes'
        refine (session.leafSubsumes_fold ..).mpr
          ⟨rfl, foldExpansionParameters_decides.trans compatible compatible', ?_⟩
        rw [session.subsumes_iff_covers inside.noConcept insideC.noConcept]
        refine subsumes.trans subsumes' ?_
        intro a isA b isB c isC
        exact ih inside a isA b c (insideB.leaf isB) (insideC.leaf isC)
      | _ => cases second
    | _ => cases first
  | conjunction lhs rhs lhsTrans rhsTrans | disjunction lhs rhs lhsTrans rhsTrans =>
    obtain ⟨noConcept, typed⟩ := settled
    rw [NormalizedConstraint.containsConceptDependent, Bool.or_eq_false_iff] at noConcept
    rw [NormalizedConstraint.typed, Bool.and_eq_true] at typed
    intro a mem
    rcases List.mem_append.mp mem with inLhs | inRhs
    · exact lhsTrans ⟨noConcept.1, typed.1⟩ a inLhs
    · exact rhsTrans ⟨noConcept.2, typed.2⟩ a inRhs

/-- A valuation of leaves that gives a leaf at least the value of those that
subsume it. -/
def Respects (value : NormalizedConstraint → Prop) : Prop :=
  ∀ a b, Settled a → a.form = .leaf a → Settled b → b.form = .leaf b →
    session.leafSubsumes a b = true → value a → value b

theorem subsumes_iff_holds (lhsSettled : Settled lhs) (rhsSettled : Settled rhs) :
    session.normalizedConstraintSubsumes lhs rhs = true ↔
      ∀ value, session.Respects value → lhs.form.holds value → rhs.form.holds value := by
  have isLeaf : ∀ {constraint : NormalizedConstraint}, Settled constraint →
      ∀ leaf ∈ constraint.form.leaves, Settled leaf ∧ leaf.form = .leaf leaf :=
    fun settled leaf mem => ⟨settled.leaf mem, (leaves_cases settled.noConcept mem).2.2.1⟩
  have ofLeaf : ∀ {a : NormalizedConstraint}, a.form = .leaf a → a ∈ a.form.leaves := by
    intro a isForm
    rw [isForm]
    exact .head _
  rw [session.subsumes_iff_covers lhsSettled.noConcept rhsSettled.noConcept,
    Form.covers_iff_entails (isLeaf lhsSettled) (isLeaf rhsSettled)
      (fun a inDomain => session.leafSubsumes_refl inDomain.1 a (ofLeaf inDomain.2))
      (fun a b c inA inB inC =>
        session.leafSubsumes_trans inA.1 a (ofLeaf inA.2) b c inB.1 inC.1)]
  simp only [Respects, and_imp]

end Session

end Aburi.Collect
